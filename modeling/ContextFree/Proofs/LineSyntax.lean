import ContextFree.Proofs.TextFormat

namespace ContextFree.Text

/-! ### The grammar of lines -/

/-- Alternatives with bars between them. An alternative is any number of names and signs for the empty word. -/
inductive Choices : List Token → List (List Item) → Prop
  | last (items : List Item) : Choices (items.map Item.token) [items]
  | more (items : List Item) {tokens alternatives} (behind : Choices tokens alternatives) :
      Choices (items.map Item.token ++ .bar :: tokens) (items :: alternatives)

/-- What the tokens of a line say. -/
inductive Denotes : List Token → Line → Prop
  | declare (declaration : Declaration) (names : List Name) :
      Denotes (.keyword declaration :: .colon :: names.map .name) (.declare declaration names)
  | rule (lhs : Name) {tokens alternatives} (right : Choices tokens alternatives) :
      Denotes (.name lhs :: .arrow :: tokens) (.rule lhs alternatives)

def Accepted (tokens : List Token) : Prop :=
  ∃ line, Denotes tokens line

/-- A line can go on from here, if only with nothing. -/
def Extendable (tokens : List Token) : Prop :=
  ∃ more, Accepted (tokens ++ more)

/-- The first token with which no line goes on. -/
def Blamed (tokens : List Token) (token : Token) : Prop :=
  ∃ before after, tokens = before ++ token :: after ∧ Extendable before ∧ ¬ Extendable (before ++ [token])

def Token.IsName (token : Token) : Prop :=
  ∃ text, token = .name text

/-- May stand to the right of an arrow. -/
def Token.OnRight (token : Token) : Prop :=
  token = .bar ∨ token = .epsilon ∨ token.IsName

theorem choices_iff {tokens : List Token} {alternatives : List (List Item)} :
    Choices tokens alternatives ↔ alternatives ≠ [] ∧ tokens = barred alternatives := by
  constructor
  · intro choices
    induction choices with
    | last items => exact ⟨List.cons_ne_nil _ _, (barred_singleton items).symm⟩
    | more items _ ih => exact ⟨List.cons_ne_nil _ _, by rw [barred_cons ih.1, ih.2]⟩
  · rintro ⟨filled, rfl⟩
    induction alternatives with
    | nil => exact absurd rfl filled
    | cons items others ih =>
      by_cases single : others = []
      · rw [single, barred_singleton]
        exact .last items
      · rw [barred_cons single]
        exact .more items (ih single)

/-- The reader finds what the tokens say. -/
theorem ofTokens_eq_ok_iff_denotes {tokens : List Token} {line : Line} :
    Line.ofTokens tokens = .ok line ↔ Denotes tokens line := by
  rw [Line.ofTokens_eq_ok_iff]
  constructor
  · rintro ⟨filled, rfl⟩
    cases line with
    | declare declaration names => exact .declare declaration names
    | rule lhs alternatives => exact .rule lhs (choices_iff.mpr ⟨filled, rfl⟩)
  · intro denotes
    cases denotes with
    | declare => exact ⟨trivial, rfl⟩
    | rule lhs right =>
      obtain ⟨filled, rfl⟩ := choices_iff.mp right
      exact ⟨filled, rfl⟩

theorem accepted_iff_ok {tokens : List Token} : Accepted tokens ↔ ∃ line, Line.ofTokens tokens = .ok line :=
  exists_congr fun _ => ofTokens_eq_ok_iff_denotes.symm

/-! ### The two loops -/

/-- A reader takes tokens as long as they fit, and ends with the first that does not. -/
structure ReadsWhile {α : Type} (read : List Token → Except SyntaxFault α) (fits : Token → Prop) : Prop where
  done : ∃ a, read [] = .ok a
  fit : ∀ {token}, fits token → ∀ rest, ∃ next, read (token :: rest) = next <$> read rest
  misfit : ∀ {token}, ¬ fits token → ∀ rest, read (token :: rest) = .error (.unexpected token)

namespace ReadsWhile

variable {α : Type} {read : List Token → Except SyntaxFault α} {fits : Token → Prop} (loop : ReadsWhile read fits)
include loop

theorem exists_ok_iff {tokens : List Token} : (∃ a, read tokens = .ok a) ↔ ∀ t ∈ tokens, fits t := by
  induction tokens with
  | nil => simp [loop.done]
  | cons t rest ih =>
    rw [List.forall_mem_cons, ← ih]
    by_cases first : fits t
    · obtain ⟨next, same⟩ := loop.fit first rest
      simp [same, first, map_eq_ok_iff]
    · simp [loop.misfit first rest, first]

theorem exists_misfit {tokens : List Token} {fault : SyntaxFault} (failed : read tokens = .error fault) :
    ∃ before token after, tokens = before ++ token :: after ∧ (∀ t ∈ before, fits t) ∧ ¬ fits token ∧
      fault = .unexpected token := by
  induction tokens with
  | nil =>
    obtain ⟨a, ran⟩ := loop.done
    cases ran.symm.trans failed
  | cons t rest ih =>
    by_cases first : fits t
    · obtain ⟨next, same⟩ := loop.fit first rest
      rw [same, map_eq_error_iff] at failed
      obtain ⟨before, token, after, rfl, fit, misfit, same⟩ := ih failed
      exact ⟨t :: before, token, after, rfl, List.forall_mem_cons.mpr ⟨first, fit⟩, misfit, same⟩
    · rw [loop.misfit first rest] at failed
      exact ⟨[], t, rest, rfl, List.forall_mem_nil _, first, (Except.error.inj failed).symm⟩

end ReadsWhile

theorem readsWhile_names : ReadsWhile Line.names Token.IsName where
  done := ⟨[], rfl⟩
  fit := by
    rintro _ ⟨text, rfl⟩ rest
    exact ⟨_, rfl⟩
  misfit := by
    intro token notName rest
    cases token with
    | name text => exact absurd ⟨text, rfl⟩ notName
    | _ => rfl

theorem readsWhile_alternatives : ReadsWhile Line.alternatives Token.OnRight where
  done := ⟨[[]], rfl⟩
  fit := by
    rintro _ (rfl | rfl | ⟨text, rfl⟩) rest
    · exact ⟨_, rfl⟩
    · exact ⟨_, rfl⟩
    · exact ⟨_, rfl⟩
  misfit := by
    intro token misfit rest
    cases token with
    | bar => exact absurd (.inl rfl) misfit
    | epsilon => exact absurd (.inr (.inl rfl)) misfit
    | name text => exact absurd (.inr (.inr ⟨text, rfl⟩)) misfit
    | _ => rfl

/-! ### Prefixes of lines -/

/-- A keyword, a colon and names, or a name, an arrow and what may stand to the right of it. -/
theorem accepted_iff {tokens : List Token} : Accepted tokens ↔
    (∃ declaration rest, tokens = .keyword declaration :: .colon :: rest ∧ ∀ t ∈ rest, t.IsName) ∨
      ∃ lhs rest, tokens = .name lhs :: .arrow :: rest ∧ ∀ t ∈ rest, t.OnRight := by
  constructor
  · rintro ⟨line, denotes⟩
    cases denotes with
    | declare declaration names => exact .inl ⟨declaration, _, rfl, List.forall_mem_map.mpr fun text _ => ⟨text, rfl⟩⟩
    | rule lhs right =>
      have ran := Line.alternatives_eq_ok_iff.mpr (choices_iff.mp right)
      exact .inr ⟨lhs, _, rfl, readsWhile_alternatives.exists_ok_iff.mp ⟨_, ran⟩⟩
  · rintro (⟨declaration, rest, rfl, names⟩ | ⟨lhs, rest, rfl, right⟩)
    · obtain ⟨names, ran⟩ := readsWhile_names.exists_ok_iff.mpr names
      exact accepted_iff_ok.mpr ⟨_, map_eq_ok_iff.mpr ⟨names, ran, rfl⟩⟩
    · obtain ⟨alternatives, ran⟩ := readsWhile_alternatives.exists_ok_iff.mpr right
      exact accepted_iff_ok.mpr ⟨_, map_eq_ok_iff.mpr ⟨alternatives, ran, rfl⟩⟩

theorem Accepted.extendable {tokens : List Token} (accepted : Accepted tokens) : Extendable tokens :=
  ⟨[], by rwa [List.append_nil]⟩

theorem Extendable.of_append {first second : List Token} (extendable : Extendable (first ++ second)) :
    Extendable first := by
  obtain ⟨more, accepted⟩ := extendable
  exact ⟨second ++ more, by rwa [← List.append_assoc]⟩

/-- What a line begins with: nothing yet, the token before the colon or arrow, or a line that could be at its end. -/
def Begun (tokens : List Token) : Prop :=
  Accepted tokens ∨ tokens = [] ∨ (∃ declaration, tokens = [.keyword declaration]) ∨ ∃ lhs, tokens = [.name lhs]

/-- What is missing can be said in tokens with a fixed spelling. -/
theorem Begun.exists_literals {tokens : List Token} (begun : Begun tokens) :
    ∃ more, (∀ t ∈ more, t ∈ Token.literals) ∧ Accepted (tokens ++ more) := by
  rcases begun with accepted | rfl | ⟨declaration, rfl⟩ | ⟨lhs, rfl⟩
  · exact ⟨[], List.forall_mem_nil _, by rwa [List.append_nil]⟩
  · exact ⟨[.keyword .start, .colon], by decide, accepted_iff.mpr (.inl ⟨.start, [], rfl, List.forall_mem_nil _⟩)⟩
  · exact ⟨[.colon], by decide, accepted_iff.mpr (.inl ⟨declaration, [], rfl, List.forall_mem_nil _⟩)⟩
  · exact ⟨[.arrow], by decide, accepted_iff.mpr (.inr ⟨lhs, [], rfl, List.forall_mem_nil _⟩)⟩

/-- From the second token on there may be an end wherever a line can go on. -/
theorem extendable_iff {tokens : List Token} : Extendable tokens ↔ Begun tokens := by
  refine ⟨fun extendable => ?_, fun begun => begun.exists_literals.imp fun _ => And.right⟩
  obtain ⟨more, accepted⟩ := extendable
  rw [accepted_iff] at accepted
  match tokens with
  | [] => exact .inr (.inl rfl)
  | [token] =>
    rcases accepted with ⟨declaration, rest, same, _⟩ | ⟨lhs, rest, same, _⟩
    · exact .inr (.inr (.inl ⟨declaration, by rw [(List.cons.inj same).1]⟩))
    · exact .inr (.inr (.inr ⟨lhs, by rw [(List.cons.inj same).1]⟩))
  | first :: second :: rest =>
    refine .inl (accepted_iff.mpr ?_)
    rcases accepted with ⟨declaration, all, same, names⟩ | ⟨lhs, all, same, right⟩
    · obtain ⟨rfl, rfl, rfl⟩ : first = _ ∧ second = _ ∧ rest ++ more = all := by simpa using same
      exact .inl ⟨declaration, rest, rfl, (List.forall_mem_append.mp names).1⟩
    · obtain ⟨rfl, rfl, rfl⟩ : first = _ ∧ second = _ ∧ rest ++ more = all := by simpa using same
      exact .inr ⟨lhs, rest, rfl, (List.forall_mem_append.mp right).1⟩

theorem not_extendable_append {before : List Token} {token : Token} (stuck : ¬ Extendable (before ++ [token]))
    (after : List Token) : ¬ Extendable (before ++ token :: after) := by
  rw [← List.singleton_append, ← List.append_assoc]
  exact mt Extendable.of_append stuck

theorem eq_of_not_extendable {before between after rest : List Token} {t u : Token}
    (stuck : ¬ Extendable (before ++ [t])) (extendable : Extendable (before ++ between))
    (same : t :: after = between ++ u :: rest) : t = u := by
  cases between with
  | nil => exact (List.cons.inj same).1
  | cons first between =>
    obtain ⟨rfl, _⟩ := List.cons.inj same
    exact absurd extendable (not_extendable_append stuck between)

/-- Of two such tokens one would come first, and a line would go on with it. -/
theorem Blamed.unique {tokens : List Token} {first second : Token} (one : Blamed tokens first)
    (other : Blamed tokens second) : first = second := by
  obtain ⟨before, after, rfl, extendable, stuck⟩ := one
  obtain ⟨before', after', same, extendable', stuck'⟩ := other
  rcases List.append_eq_append_iff.mp same with ⟨between, rfl, rest⟩ | ⟨between, rfl, rest⟩
  · exact eq_of_not_extendable stuck extendable' rest
  · exact (eq_of_not_extendable stuck' extendable rest).symm

theorem Blamed.not_extendable {tokens : List Token} {token : Token} (blamed : Blamed tokens token) :
    ¬ Extendable tokens := by
  obtain ⟨before, after, rfl, _, stuck⟩ := blamed
  exact not_extendable_append stuck after

theorem extendable_keyword_iff {declaration : Declaration} {token : Token} {rest : List Token} :
    Extendable (.keyword declaration :: token :: rest) ↔ token = .colon ∧ ∀ t ∈ rest, t.IsName := by
  simp [extendable_iff, Begun, accepted_iff]

theorem extendable_name_iff {lhs : Name} {token : Token} {rest : List Token} :
    Extendable (.name lhs :: token :: rest) ↔ token = .arrow ∧ ∀ t ∈ rest, t.OnRight := by
  simp [extendable_iff, Begun, accepted_iff]

theorem extendable_singleton_iff {token : Token} :
    Extendable [token] ↔ (∃ declaration, token = .keyword declaration) ∨ ∃ lhs, token = .name lhs := by
  simp [extendable_iff, Begun, accepted_iff]

theorem two_le_length_of_accepted {tokens : List Token} (accepted : Accepted tokens) : 2 ≤ tokens.length := by
  rcases accepted_iff.mp accepted with ⟨_, _, rfl, _⟩ | ⟨_, _, rfl, _⟩ <;> simp

/-- After the start of a line with which its readers go on, a reader ends where the line cannot go on. -/
theorem ReadsWhile.blamed {α : Type} {read : List Token → Except SyntaxFault α} {fits : Token → Prop}
    (loop : ReadsWhile read fits) {first tokens : List Token} {fault : SyntaxFault}
    (goesOn : ∀ rest, Extendable (first ++ rest) ↔ ∀ t ∈ rest, fits t) (failed : read tokens = .error fault) :
    ∃ token, fault = .unexpected token ∧ Blamed (first ++ tokens) token := by
  obtain ⟨before, token, after, rfl, fit, misfit, same⟩ := loop.exists_misfit failed
  refine ⟨token, same, first ++ before, after, (List.append_assoc ..).symm, (goesOn before).mpr fit, ?_⟩
  rw [List.append_assoc, goesOn]
  exact fun all => misfit (all token (by simp))

/-- A fault is a token with which no line goes on, or the end of a line that could go on. -/
theorem ofTokens_error {tokens : List Token} {fault : SyntaxFault} (failed : Line.ofTokens tokens = .error fault) :
    (∃ token, fault = .unexpected token ∧ Blamed tokens token) ∨
      (fault = .unexpectedEnd ∧ ¬ Accepted tokens ∧ Extendable tokens) := by
  have short {tokens : List Token} (few : tokens.length < 2) : ¬ Accepted tokens :=
    fun accepted => absurd (two_le_length_of_accepted accepted) (by omega)
  unfold Line.ofTokens at failed
  split at failed
  · next declaration rest =>
    have goesOn (rest : List Token) : Extendable ([.keyword declaration, .colon] ++ rest) ↔ ∀ t ∈ rest, t.IsName :=
      extendable_keyword_iff.trans (and_iff_right rfl)
    exact .inl (readsWhile_names.blamed goesOn (map_eq_error_iff.mp failed))
  · next lhs rest =>
    have goesOn (rest : List Token) : Extendable ([.name lhs, .arrow] ++ rest) ↔ ∀ t ∈ rest, t.OnRight :=
      extendable_name_iff.trans (and_iff_right rfl)
    exact .inl (readsWhile_alternatives.blamed goesOn (map_eq_error_iff.mp failed))
  · next declaration token after notColon =>
    refine .inl ⟨token, (Except.error.inj failed).symm, [.keyword declaration], after, rfl, ?_, ?_⟩
    · exact extendable_singleton_iff.mpr (.inl ⟨declaration, rfl⟩)
    · exact fun extendable => notColon (extendable_keyword_iff.mp extendable).1
  · next lhs token after notArrow =>
    refine .inl ⟨token, (Except.error.inj failed).symm, [.name lhs], after, rfl, ?_, ?_⟩
    · exact extendable_singleton_iff.mpr (.inr ⟨lhs, rfl⟩)
    · exact fun extendable => notArrow (extendable_name_iff.mp extendable).1
  · next declaration =>
    have goesOn := extendable_singleton_iff.mpr (.inl ⟨declaration, rfl⟩)
    exact .inr ⟨(Except.error.inj failed).symm, short (by simp), goesOn⟩
  · next lhs =>
    have goesOn := extendable_singleton_iff.mpr (.inr ⟨lhs, rfl⟩)
    exact .inr ⟨(Except.error.inj failed).symm, short (by simp), goesOn⟩
  · next token after _ _ keywordBefore nameBefore keyword name =>
    refine .inl ⟨token, (Except.error.inj failed).symm, [], after, rfl, extendable_iff.mpr (.inr (.inl rfl)), ?_⟩
    rw [List.nil_append, extendable_singleton_iff]
    rintro (⟨declaration, rfl⟩ | ⟨lhs, rfl⟩)
    · cases after with
      | nil => exact keyword declaration rfl rfl
      | cons second rest => exact keywordBefore declaration second rest rfl rfl
    · cases after with
      | nil => exact name lhs rfl rfl
      | cons second rest => exact nameBefore lhs second rest rfl rfl
  · exact .inr ⟨(Except.error.inj failed).symm, short (by simp), extendable_iff.mpr (.inr (.inl rfl))⟩

theorem ofTokens_eq_unexpected_iff {tokens : List Token} {token : Token} :
    Line.ofTokens tokens = .error (.unexpected token) ↔ Blamed tokens token := by
  constructor
  · intro failed
    rcases ofTokens_error failed with ⟨other, same, blamed⟩ | ⟨same, _⟩
    · cases same
      exact blamed
    · cases same
  · intro blamed
    cases outcome : Line.ofTokens tokens with
    | ok line => exact absurd (accepted_iff_ok.mpr ⟨line, outcome⟩).extendable blamed.not_extendable
    | error fault =>
      rcases ofTokens_error outcome with ⟨other, rfl, first⟩ | ⟨_, _, extendable⟩
      · rw [first.unique blamed]
      · exact absurd extendable blamed.not_extendable

theorem ofTokens_eq_unexpectedEnd_iff {tokens : List Token} :
    Line.ofTokens tokens = .error .unexpectedEnd ↔ ¬ Accepted tokens ∧ Extendable tokens := by
  constructor
  · intro failed
    rcases ofTokens_error failed with ⟨_, same, _⟩ | ⟨_, unfinished⟩
    · cases same
    · exact unfinished
  · intro unfinished
    cases outcome : Line.ofTokens tokens with
    | ok line => exact absurd (accepted_iff_ok.mpr ⟨line, outcome⟩) unfinished.1
    | error fault =>
      rcases ofTokens_error outcome with ⟨_, _, blamed⟩ | ⟨rfl, _⟩
      · exact absurd unfinished.2 blamed.not_extendable
      · rfl

/-- The alternatives of a rule are the parts between the bars. -/
theorem Choices.splitOn {tokens : List Token} {alternatives : List (List Item)}
    (choices : Choices tokens alternatives) : tokens.splitOn .bar = alternatives.map (·.map Item.token) := by
  obtain ⟨filled, rfl⟩ := choices_iff.mp choices
  refine List.splitOn_intercalate _ (List.forall_mem_map.mpr fun items _ => ?_) (by simpa using filled)
  intro member
  obtain ⟨item, _, same⟩ := List.mem_map.mp member
  cases item <;> cases same

/-! ### Lines of a text -/

theorem choices_eq_error {alternatives : List (List Item)} {fault : SyntaxFault}
    (failed : alternatives.mapM choice = .error fault) : fault = .epsilonNotAlone := by
  induction alternatives with
  | nil => cases failed
  | cons items rest ih =>
    rw [List.mapM_cons, choice_eq] at failed
    by_cases mixed : 1 < items.length ∧ .epsilon ∈ items
    · rw [if_pos mixed] at failed
      exact (Except.error.inj failed).symm
    · rw [if_neg mixed, ok_bind] at failed
      exact ih (bind_ok_eq_error_iff.mp failed)

/-- The faults that are found while a line is entered are others than those of its tokens. -/
theorem enter_eq_error {draft : Draft} {line : Line} {fault : SyntaxFault} (failed : draft.enter line = .error fault) :
    fault = .epsilonNotAlone ∨ fault = .notOneStart ∨ ∃ declaration, fault = .duplicate declaration := by
  unfold Draft.enter at failed
  split at failed
  · next lhs alternatives =>
    cases ran : alternatives.mapM choice with
    | ok choices =>
      rw [ran] at failed
      cases failed
    | error e =>
      rw [ran] at failed
      cases failed
      exact .inl (choices_eq_error ran)
  · split at failed
    · cases failed
      exact .inr (.inr ⟨_, rfl⟩)
    · cases failed
  · split at failed
    · cases failed
      exact .inr (.inr ⟨_, rfl⟩)
    · cases failed
  · split at failed
    · cases failed
      exact .inr (.inr ⟨_, rfl⟩)
    · split at failed
      · cases failed
      · cases failed
        exact .inr (.inl rfl)

theorem readLine_eq {raw : List Char} {tokens : List Token} (reads : Reads (uncommented raw) tokens) (draft : Draft) :
    draft.readLine raw = if tokens = [] then .ok draft else Line.ofTokens tokens >>= draft.enter := by
  have scanned : tokens? (raw.takeWhile (· != '#')) = some tokens := reads.scan_eq
  rw [Draft.readLine, scanned]
  cases tokens <;> rfl

/-- A line of a text has these faults if its tokens have, whatever was read before. -/
theorem readLine_error_iff {raw : List Char} {tokens : List Token} (reads : Reads (uncommented raw) tokens)
    (nonblank : tokens ≠ []) (draft : Draft) {fault : SyntaxFault}
    (syntactic : fault = .unexpectedEnd ∨ ∃ token, fault = .unexpected token) :
    draft.readLine raw = .error fault ↔ Line.ofTokens tokens = .error fault := by
  rw [readLine_eq reads, if_neg nonblank]
  cases Line.ofTokens tokens with
  | error e => simp [bind, Except.bind]
  | ok line =>
    refine ⟨fun failed => ?_, fun failed => by cases failed⟩
    rcases enter_eq_error failed with rfl | rfl | ⟨declaration, rfl⟩ <;> simp at syntactic

/-- Lines are read exactly from the tokens of the line grammar. Where they are not, the fault is the first token
with which no line goes on, or else the end of a line that is part of another. -/
theorem ofTokens_exact (tokens : List Token) :
    ((∃ line, Line.ofTokens tokens = .ok line) ↔
      (∃ declaration rest, tokens = .keyword declaration :: .colon :: rest ∧ ∀ t ∈ rest, t.IsName) ∨
        ∃ lhs rest, tokens = .name lhs :: .arrow :: rest ∧ ∀ t ∈ rest, t.OnRight) ∧
    (∀ line, Line.ofTokens tokens = .ok line ↔ Denotes tokens line) ∧
    (∀ lhs rest alternatives, tokens = .name lhs :: .arrow :: rest →
      Line.ofTokens tokens = .ok (.rule lhs alternatives) → alternatives.map (·.map Item.token) = rest.splitOn .bar) ∧
    (∀ fault, Line.ofTokens tokens = .error fault →
      (∃ token, fault = .unexpected token ∧ fault.message = "unexpected `" ++ token.spelling ++ "`") ∨
        fault = .unexpectedEnd ∧ fault.message = "unexpected end of line") ∧
    (∀ token, Line.ofTokens tokens = .error (.unexpected token) ↔ Blamed tokens token) ∧
    (Line.ofTokens tokens = .error .unexpectedEnd ↔
      ¬ Accepted tokens ∧ ∃ more, more ≠ [] ∧ Accepted (tokens ++ more)) ∧
    (Extendable tokens → ∃ more, (∀ t ∈ more, t ∈ Token.literals) ∧ Accepted (tokens ++ more)) ∧
    ∀ (draft : Draft) (raw : List Char), Reads (uncommented raw) tokens → tokens ≠ [] →
      (∀ token, draft.readLine raw = .error (.unexpected token) ↔ Blamed tokens token) ∧
        (draft.readLine raw = .error .unexpectedEnd ↔
          ¬ Accepted tokens ∧ ∃ more, more ≠ [] ∧ Accepted (tokens ++ more)) := by
  have unfinished : ¬ Accepted tokens ∧ Extendable tokens ↔
      ¬ Accepted tokens ∧ ∃ more, more ≠ [] ∧ Accepted (tokens ++ more) := by
    refine and_congr_right fun refused => exists_congr fun more => (and_iff_right_of_imp ?_).symm
    rintro accepted rfl
    exact refused (by rwa [List.append_nil] at accepted)
  refine ⟨accepted_iff_ok.symm.trans accepted_iff, fun _ => ofTokens_eq_ok_iff_denotes, ?_, fun fault failed => ?_,
    fun _ => ofTokens_eq_unexpected_iff, ofTokens_eq_unexpectedEnd_iff.trans unfinished,
    fun extendable => (extendable_iff.mp extendable).exists_literals, ?_⟩
  · rintro lhs rest alternatives rfl ran
    cases ofTokens_eq_ok_iff_denotes.mp ran with
    | rule _ right => exact right.splitOn.symm
  · rcases ofTokens_error failed with ⟨token, rfl, _⟩ | ⟨rfl, _⟩
    · exact .inl ⟨token, rfl, rfl⟩
    · exact .inr ⟨rfl, rfl⟩
  · intro draft raw reads nonblank
    constructor
    · exact fun token => (readLine_error_iff reads nonblank draft (.inr ⟨token, rfl⟩)).trans ofTokens_eq_unexpected_iff
    · rw [readLine_error_iff reads nonblank draft (.inl rfl), ofTokens_eq_unexpectedEnd_iff, unfinished]

/-- A line without an arrow, a line with a keyword alone, and the tokens of `S -> a | ε`. -/
theorem arrowless_exact : Draft.empty.readLine "S a # b".toList = .error (.unexpected (.name "a")) ∧
    Draft.empty.readLine "start".toList = .error .unexpectedEnd ∧
    ∃ alternatives, Line.ofTokens [.name "S", .arrow, .name "a", .bar, .epsilon] = .ok (.rule "S" alternatives) ∧
      alternatives.map (·.map Item.token) = [[.name "a"], [.epsilon]] := by
  have arrowless : Reads (uncommented "S a # b".toList) [.name "S", .name "a"] :=
    (tokens?_eq_some_iff (noSign_uncommented _)).mp (by decide +kernel)
  have unfinished : Reads (uncommented "start".toList) [.keyword .start] :=
    (tokens?_eq_some_iff (noSign_uncommented _)).mp (by decide +kernel)
  obtain ⟨_, _, _, _, _, _, _, atName⟩ := ofTokens_exact [.name "S", .name "a"]
  obtain ⟨_, _, _, _, _, _, _, atEnd⟩ := ofTokens_exact [.keyword .start]
  obtain ⟨_, _, split, _⟩ := ofTokens_exact [.name "S", .arrow, .name "a", .bar, .epsilon]
  refine ⟨((atName .empty _ arrowless (by simp)).1 (.name "a")).mpr ?_, (atEnd .empty _ unfinished (by simp)).2.mpr ?_,
    [[.name "a"], [.epsilon]], rfl, split "S" _ _ rfl rfl⟩
  · refine ⟨[.name "S"], [], rfl, extendable_singleton_iff.mpr (.inr ⟨"S", rfl⟩), fun extendable => ?_⟩
    cases (extendable_name_iff.mp extendable).1
  · refine ⟨fun accepted => absurd (two_le_length_of_accepted accepted) (by simp), [.colon], by simp, ?_⟩
    exact accepted_iff.mpr (.inl ⟨.start, [], rfl, List.forall_mem_nil _⟩)

end ContextFree.Text
