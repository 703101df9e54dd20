import ContextFree.Proofs.LongestMatch
import Mathlib.Data.List.TakeWhile
import Mathlib.Logic.Relation

namespace ContextFree.Text

/-- Whether a line says nothing before its first number sign. -/
def isSilent (raw : List Char) : Bool :=
  (uncommented raw).all isBlank

/-- The lines that are not blank, each with its number. -/
def said (text : List Char) : List (List Char × Nat) :=
  ((lines text).zipIdx 1).filter fun (raw, _) => !isSilent raw

/-- The tokens of the lines that are not blank. -/
def heard (raws : List (List Char)) : List (Option (List Token)) :=
  (raws.filter fun raw => !isSilent raw).map fun raw => tokens? (uncommented raw)

/-- Something is added that says nothing: white space where no run is cut by it, a comment at the end of a line, or an
end of line next to the beginning or the end of one. -/
inductive Pads : List Char → List Char → Prop
  | blank {before after : List Char} {c : Char} : isBlank c = true → c ≠ '\n' →
      (∀ d ∈ before.getLast?, ∀ e ∈ after.head?, together d e = false) → Pads (before ++ after) (before ++ c :: after)
  | comment {before after comment : List Char} : '\n' ∉ comment → (∀ c ∈ after.head?, c = '\n') →
      Pads (before ++ after) (before ++ '#' :: comment ++ after)
  | feed {before after : List Char} : (∀ c ∈ before.getLast?, c = '\n') ∨ (∀ c ∈ after.head?, c = '\n') →
      Pads (before ++ after) (before ++ '\n' :: after)

/-- A line up to its first number sign, without the white space at both ends. -/
def trimmed (raw : List Char) : List Char :=
  (((uncommented raw).dropWhile isBlank).reverse.dropWhile isBlank).reverse

/-- Reads a line after it has been trimmed, unless nothing is left of it. -/
def Draft.readTrimmed (draft : Draft) (raw : List Char) : Except SyntaxFault Draft :=
  if (trimmed raw).isEmpty then
    .ok draft
  else
    match tokens? (trimmed raw) with
    | none => .error .invalidToken
    | some tokens => Line.ofTokens tokens >>= draft.enter

/-- Reads lines that have numbers of their own. -/
def Draft.readSaid (draft : Draft) : List (List Char × Nat) → Except SyntaxError Draft
  | [] => .ok draft
  | (raw, number) :: rest =>
    match draft.readLine raw with
    | .error fault => .error ⟨number, fault⟩
    | .ok next => next.readSaid rest

/-- Two texts describe the same; or the same line of those that are not blank has the same fault in both; or both
lack a start symbol, which is a fault of the last line of each. -/
def Alike (s t : String) : Prop :=
  (∃ spec, Spec.ofText s = .ok spec ∧ Spec.ofText t = .ok spec) ∨
    (∃ (i : Nat) (raw other : List Char) (m n : Nat) (fault : SyntaxFault),
      (said s.toList)[i]? = some (raw, m) ∧ (said t.toList)[i]? = some (other, n) ∧
        Spec.ofText s = .error ⟨m, fault⟩ ∧ Spec.ofText t = .error ⟨n, fault⟩) ∨
    Spec.ofText s = .error ⟨(lines s.toList).length, .missingStart⟩ ∧
      Spec.ofText t = .error ⟨(lines t.toList).length, .missingStart⟩

/-! ### Blank lines -/

theorem words_eq_nil_iff {text : List Char} : words text = [] ↔ text.all isBlank = true := by
  rw [words, List.filter_eq_nil_iff, List.all_eq_true]
  constructor
  · intro silent c member
    rw [← List.flatten_splitBy together text] at member
    obtain ⟨piece, inText, inPiece⟩ := List.mem_flatten.mp member
    have white : piece.all isBlank = true := by simpa using silent piece inText
    exact List.all_eq_true.mp white c inPiece
  · intro white piece inText
    have all : piece.all isBlank = true := by
      refine List.all_eq_true.mpr fun c inPiece => white c ?_
      rw [← List.flatten_splitBy together text]
      exact List.mem_flatten.mpr ⟨piece, inText, inPiece⟩
    simp [all]

theorem isSilent_iff {raw : List Char} : isSilent raw = true ↔ tokens? (uncommented raw) = some [] := by
  rw [isSilent, ← words_eq_nil_iff, tokens?_eq_words (noSign_uncommented raw), Option.some.injEq, List.map_eq_nil_iff]

theorem readLine_of_silent {raw : List Char} (silent : isSilent raw = true) (draft : Draft) :
    draft.readLine raw = .ok draft := by
  rw [readLine_eq ((tokens?_eq_some_iff (noSign_uncommented raw)).mp (isSilent_iff.mp silent)), if_pos rfl]

theorem readLine_congr {raw other : List Char} (same : tokens? (uncommented raw) = tokens? (uncommented other))
    (draft : Draft) : draft.readLine raw = draft.readLine other := by
  unfold uncommented at same
  rw [Draft.readLine, Draft.readLine, same]

/-- Only lines that are not blank count. -/
theorem readLines_eq_readSaid (draft : Draft) (number : Nat) (raws : List (List Char)) :
    draft.readLines number raws = draft.readSaid ((raws.zipIdx number).filter fun (raw, _) => !isSilent raw) := by
  induction raws generalizing draft number with
  | nil => rfl
  | cons raw rest ih =>
    rw [Draft.readLines, List.zipIdx_cons]
    by_cases silent : isSilent raw = true
    · rw [readLine_of_silent silent, List.filter_cons_of_neg (by simpa using silent)]
      exact ih draft (number + 1)
    · rw [List.filter_cons_of_pos (by simpa using silent), Draft.readSaid]
      cases draft.readLine raw with
      | error fault => rfl
      | ok next => exact ih next (number + 1)

theorem tokens_said (text : List Char) : (said text).map (fun (raw, _) => tokens? (uncommented raw)) = heard (lines text) := by
  unfold said heard
  generalize lines text = raws
  generalize 1 = number
  induction raws generalizing number with
  | nil => rfl
  | cons raw rest ih =>
    rw [List.zipIdx_cons]
    by_cases silent : isSilent raw = true
    · rw [List.filter_cons_of_neg (by simpa using silent), List.filter_cons_of_neg (by simpa using silent), ih]
    · rw [List.filter_cons_of_pos (by simpa using silent), List.filter_cons_of_pos (by simpa using silent), List.map_cons,
        List.map_cons, ih]

/-- Lines with the same tokens are read alike, whatever their numbers. -/
theorem readSaid_congr {first second : List (List Char × Nat)}
    (same : first.map (fun (raw, _) => tokens? (uncommented raw)) = second.map fun (raw, _) => tokens? (uncommented raw))
    (draft : Draft) : (∃ last, draft.readSaid first = .ok last ∧ draft.readSaid second = .ok last) ∨
      ∃ (i : Nat) (raw other : List Char) (m n : Nat) (fault : SyntaxFault),
        first[i]? = some (raw, m) ∧ second[i]? = some (other, n) ∧
          draft.readSaid first = .error ⟨m, fault⟩ ∧ draft.readSaid second = .error ⟨n, fault⟩ := by
  induction first generalizing second draft with
  | nil =>
    cases second with
    | nil => exact .inl ⟨draft, rfl, rfl⟩
    | cons => cases same
  | cons one rest ih =>
    cases second with
    | nil => cases same
    | cons two others =>
      obtain ⟨raw, m⟩ := one
      obtain ⟨other, n⟩ := two
      rw [List.map_cons, List.map_cons, List.cons.injEq] at same
      simp only [Draft.readSaid, readLine_congr same.1 draft]
      cases draft.readLine other with
      | error fault => exact .inr ⟨0, raw, other, m, n, fault, rfl, rfl, rfl, rfl⟩
      | ok next =>
        refine (ih same.2 next).imp_right fun found => ?_
        obtain ⟨i, found⟩ := found
        exact ⟨i + 1, found⟩

theorem alike_of_heard {s t : String} (same : heard (lines s.toList) = heard (lines t.toList)) : Alike s t := by
  have tokens := (tokens_said s.toList).trans (same.trans (tokens_said t.toList).symm)
  rcases readSaid_congr tokens .empty with ⟨draft, first, second⟩ | ⟨i, raw, other, m, n, fault, here, there, first, second⟩
  · have firstOutcome := Spec.ofText_of_read ((readLines_eq_readSaid _ _ _).trans first)
    have secondOutcome := Spec.ofText_of_read ((readLines_eq_readSaid _ _ _).trans second)
    cases chosen : draft.start with
    | none =>
      rw [chosen] at firstOutcome secondOutcome
      exact .inr (.inr ⟨firstOutcome, secondOutcome⟩)
    | some start =>
      rw [chosen] at firstOutcome secondOutcome
      exact .inl ⟨_, firstOutcome, secondOutcome⟩
  · refine .inr (.inl ⟨i, raw, other, m, n, fault, here, there, ?_, ?_⟩)
    · exact Spec.ofText_of_failed ((readLines_eq_readSaid _ _ _).trans first)
    · exact Spec.ofText_of_failed ((readLines_eq_readSaid _ _ _).trans second)

/-! ### Positions in a text -/

theorem lines_of_noFeed {raw : List Char} (nonempty : raw ≠ []) (noFeed : '\n' ∉ raw) : lines raw = [raw] := by
  induction raw with
  | nil => exact absurd rfl nonempty
  | cons c raw ih =>
    obtain ⟨here, behind⟩ := List.ne_and_not_mem_of_not_mem_cons noFeed
    rw [lines, if_neg (Ne.symm here)]
    by_cases last : raw = []
    · rw [last]
      rfl
    · rw [ih last behind]

theorem lines_ne_nil {text : List Char} (nonempty : text ≠ []) : lines text ≠ [] := by
  obtain ⟨c, rest, rfl⟩ := List.exists_cons_of_ne_nil nonempty
  rw [lines]
  split
  · exact List.cons_ne_nil _ _
  · split <;> exact List.cons_ne_nil _ _

/-- A text that ends with a line feed ends there whatever follows. -/
theorem lines_append {front : List Char} (ended : ∀ c ∈ front.getLast?, c = '\n') (rest : List Char) :
    lines (front ++ rest) = lines front ++ lines rest := by
  induction front with
  | nil => rfl
  | cons c front ih =>
    by_cases empty : front = []
    · subst empty
      obtain rfl : c = '\n' := ended c rfl
      rfl
    have behind := ih fun d last => ended d (by rwa [List.getLast?_cons_of_ne_nil empty])
    rw [List.cons_append, lines, lines, behind]
    obtain ⟨line, others, split⟩ := List.exists_cons_of_ne_nil (lines_ne_nil empty)
    rw [split]
    by_cases feed : c = '\n'
    · rw [if_pos feed, if_pos feed]
      rfl
    · rw [if_neg feed, if_neg feed]
      rfl

theorem heard_append (first second : List (List Char)) : heard (first ++ second) = heard first ++ heard second := by
  rw [heard, List.filter_append, List.map_append]
  rfl

theorem heard_of_silent {raw : List Char} (silent : isSilent raw = true) : heard [raw] = [] := by
  simp [heard, silent]

/-- What stands in front of the end of a line is heard by itself. -/
theorem heard_line {raw rest : List Char} (noFeed : '\n' ∉ raw) (stop : ∀ c ∈ rest.head?, c = '\n') :
    heard (lines (raw ++ rest)) = heard [raw] ++ heard (lines rest) := by
  cases rest with
  | nil =>
    rw [List.append_nil]
    by_cases empty : raw = []
    · rw [empty]
      rfl
    · rw [lines_of_noFeed empty noFeed]
      exact (List.append_nil _).symm
  | cons c rest =>
    obtain rfl : c = '\n' := stop c rfl
    rw [lines_feed noFeed, ← List.singleton_append, heard_append]
    rfl

theorem exists_line_start (before : List Char) : ∃ front cur, before = front ++ cur ∧
    (∀ c ∈ front.getLast?, c = '\n') ∧ '\n' ∉ cur := by
  induction before using List.reverseRecOn with
  | nil => exact ⟨[], [], rfl, nofun, List.not_mem_nil⟩
  | append_singleton before c ih =>
    obtain ⟨front, cur, rfl, ended, noFeed⟩ := ih
    by_cases feed : c = '\n'
    · exact ⟨front ++ cur ++ [c], [], (List.append_nil _).symm, by simp [feed], List.not_mem_nil⟩
    · exact ⟨front, cur ++ [c], List.append_assoc _ _ _, ended, by simp [noFeed, Ne.symm feed]⟩

theorem exists_line_end (after : List Char) : ∃ tail rest, after = tail ++ rest ∧ '\n' ∉ tail ∧
    ∀ c ∈ rest.head?, c = '\n' := by
  induction after with
  | nil => exact ⟨[], [], rfl, List.not_mem_nil, nofun⟩
  | cons c after ih =>
    by_cases feed : c = '\n'
    · exact ⟨[], c :: after, rfl, List.not_mem_nil, by simp [feed]⟩
    · obtain ⟨tail, rest, rfl, noFeed, stop⟩ := ih
      exact ⟨c :: tail, rest, rfl, by simp [noFeed, Ne.symm feed], stop⟩

/-- The line in which a position lies is heard between those before and behind it. -/
theorem heard_position {front cur rest : List Char} (tail : List Char) (ended : ∀ c ∈ front.getLast?, c = '\n')
    (noFeed : '\n' ∉ cur ++ tail) (stop : ∀ c ∈ rest.head?, c = '\n') :
    heard (lines (front ++ cur ++ (tail ++ rest))) = heard (lines front) ++ heard [cur ++ tail] ++ heard (lines rest) := by
  rw [List.append_assoc, ← List.append_assoc cur, lines_append ended, heard_append, heard_line noFeed stop,
    List.append_assoc]

theorem heard_congr {raw other : List Char} (same : tokens? (uncommented raw) = tokens? (uncommented other)) :
    heard [raw] = heard [other] := by
  cases silent : isSilent other with
  | true => rw [heard_of_silent silent, heard_of_silent (isSilent_iff.mpr (same.trans (isSilent_iff.mp silent)))]
  | false =>
    have spoken : isSilent raw = false := by
      rw [← Bool.not_eq_true, isSilent_iff, same, ← isSilent_iff, silent]
      exact Bool.false_ne_true
    simp [heard, silent, spoken, same]

/-! ### What says nothing -/

theorem uncommented_of_mem {raw : List Char} (sign : '#' ∈ raw) (more : List Char) :
    uncommented (raw ++ more) = uncommented raw := by
  induction raw with
  | nil => cases sign
  | cons c raw ih =>
    by_cases here : c = '#'
    · simp [uncommented, here]
    · have behind := (List.mem_cons.mp sign).resolve_left (Ne.symm here)
      have kept := ih behind
      simp only [uncommented] at kept ⊢
      rw [List.cons_append, List.takeWhile_cons_of_pos (by simpa using here),
        List.takeWhile_cons_of_pos (by simpa using here), kept]

/-- White space that cuts no run changes nothing in a line. -/
theorem tokens?_blank (cur tail : List Char) {c : Char} (white : isBlank c = true)
    (apart : ∀ d ∈ cur.getLast?, ∀ e ∈ tail.head?, together d e = false) :
    tokens? (uncommented (cur ++ c :: tail)) = tokens? (uncommented (cur ++ tail)) := by
  by_cases sign : '#' ∈ cur
  · rw [uncommented_of_mem sign, uncommented_of_mem sign]
  · have noSign : c ≠ '#' := by
      rintro rfl
      revert white
      decide
    have split : uncommented (cur ++ c :: tail) = cur ++ c :: uncommented tail := by
      rw [uncommented_append sign, uncommented, uncommented, List.takeWhile_cons_of_pos (by simpa using noSign)]
    have beside : ∀ d ∈ cur.getLast?, ∀ e ∈ (uncommented tail).head?, together d e = false := by
      refine fun d last e next => apart d last e ?_
      cases tail with
      | nil => cases next
      | cons f tail =>
        by_cases first : f = '#'
        · simp [uncommented, first] at next
        · simpa [uncommented, first] using next
    rw [tokens?_eq_words (noSign_uncommented _), tokens?_eq_words (noSign_uncommented _), split,
      uncommented_append sign, words_blank white, words_append beside]

theorem heard_comment (cur comment : List Char) : heard [cur ++ '#' :: comment] = heard [cur] := by
  have same : uncommented (cur ++ '#' :: comment) = uncommented cur := by
    by_cases sign : '#' ∈ cur
    · exact uncommented_of_mem sign _
    · have whole := uncommented_append sign []
      rw [List.append_nil] at whole
      rw [uncommented_append sign, whole]
      rfl
  exact heard_congr (congrArg tokens? same)

theorem heard_feed (rest : List Char) : heard (lines ('\n' :: rest)) = heard (lines rest) := rfl

/-- What is added to a text without saying anything is not heard. -/
theorem Pads.heard_eq {s t : List Char} (pads : Pads s t) : heard (lines s) = heard (lines t) := by
  cases pads with
  | @blank before after c white notFeed apart =>
    obtain ⟨front, cur, rfl, ended, noFeed⟩ := exists_line_start before
    obtain ⟨tail, rest, rfl, noFeed', stop⟩ := exists_line_end after
    have without := heard_position tail ended (show '\n' ∉ cur ++ tail by simp [noFeed, noFeed']) stop
    have within := heard_position (c :: tail) ended
      (show '\n' ∉ cur ++ c :: tail by simp [noFeed, noFeed', Ne.symm notFeed]) stop
    have beside : ∀ d ∈ cur.getLast?, ∀ e ∈ tail.head?, together d e = false := fun d last e next =>
      apart d (List.mem_getLast?_append_of_mem_getLast? last) e (List.mem_head?_append_of_mem_head? next)
    rw [without, ← heard_congr (tokens?_blank cur tail white beside)]
    exact within.symm
  | @comment before after comment noFeed stop =>
    obtain ⟨front, cur, rfl, ended, noFeed'⟩ := exists_line_start before
    have without := heard_position [] ended (show '\n' ∉ cur ++ [] by simp [noFeed']) stop
    have within := heard_position ('#' :: comment) ended (show '\n' ∉ cur ++ '#' :: comment by simp [noFeed, noFeed']) stop
    rw [List.append_nil, List.nil_append] at without
    rw [List.append_assoc (front ++ cur), within, heard_comment]
    exact without
  | @feed before after edge =>
    rcases edge with ended | stop
    · rw [lines_append ended, lines_append ended, heard_append, heard_append, heard_feed]
    · obtain ⟨front, cur, rfl, ended, noFeed⟩ := exists_line_start before
      have inside : '\n' ∉ cur ++ [] := by rwa [List.append_nil]
      have begins : ∀ c ∈ ('\n' :: after).head?, c = '\n' := by simp
      have within := heard_position [] ended inside begins
      rw [List.nil_append, heard_feed] at within
      rw [within]
      exact heard_position [] ended inside stop

/-! ### Trimming -/

theorem not_together {c : Char} (white : isBlank c = true) (d : Char) : together c d = false ∧ together d c = false := by
  simp [together, isNameChar, white]

/-- White space at the ends of a line belongs to no word. -/
theorem words_between {left right : List Char} (front : left.all isBlank = true) (back : right.all isBlank = true)
    (text : List Char) : words (left ++ text ++ right) = words text := by
  have first : ∀ c ∈ left.getLast?, ∀ d ∈ text.head?, together c d = false := fun c last d _ =>
    (not_together (List.all_eq_true.mp front c (List.mem_of_getLast? last)) d).1
  have second : ∀ c ∈ (left ++ text).getLast?, ∀ d ∈ right.head?, together c d = false := fun c _ d next =>
    (not_together (List.all_eq_true.mp back d (List.mem_of_head? next)) c).2
  rw [words_append second, words_append first, words_eq_nil_iff.mpr front, words_eq_nil_iff.mpr back, List.nil_append,
    List.append_nil]

theorem exists_trimmed (raw : List Char) : ∃ left right, uncommented raw = left ++ trimmed raw ++ right ∧
    left.all isBlank = true ∧ right.all isBlank = true := by
  let text := (uncommented raw).dropWhile isBlank
  refine ⟨(uncommented raw).takeWhile isBlank, (text.reverse.takeWhile isBlank).reverse, ?_, List.all_takeWhile, ?_⟩
  · rw [trimmed, List.append_assoc, ← List.reverse_append, List.takeWhile_append_dropWhile, List.reverse_reverse,
      List.takeWhile_append_dropWhile]
  · rw [List.all_reverse]
    exact List.all_takeWhile

theorem trimmed_eq_nil_iff {raw : List Char} : trimmed raw = [] ↔ isSilent raw = true := by
  obtain ⟨left, right, split, front, back⟩ := exists_trimmed raw
  constructor
  · intro empty
    rw [isSilent, split, empty, List.append_nil, List.all_append, front, back]
    rfl
  · intro silent
    have none : (uncommented raw).dropWhile isBlank = [] := List.dropWhile_eq_nil_iff.mpr (List.all_eq_true.mp silent)
    rw [trimmed, none]
    rfl

theorem tokens?_trimmed (raw : List Char) : tokens? (trimmed raw) = tokens? (uncommented raw) := by
  obtain ⟨left, right, split, front, back⟩ := exists_trimmed raw
  have noSign : '#' ∉ trimmed raw := fun member => noSign_uncommented raw (by simp [split, member])
  rw [tokens?_eq_words noSign, tokens?_eq_words (noSign_uncommented raw), split, words_between front back]

/-- It is all the same whether lines are trimmed and looked at before they are read. -/
theorem readTrimmed_eq (draft : Draft) (raw : List Char) : draft.readTrimmed raw = draft.readLine raw := by
  unfold Draft.readTrimmed
  by_cases empty : trimmed raw = []
  · rw [readLine_of_silent (trimmed_eq_nil_iff.mp empty), if_pos (by rw [empty]; rfl)]
  · obtain ⟨tokens, reads⟩ := exists_reads (uncommented raw) (noSign_uncommented raw)
    have filled : tokens ≠ [] := by
      rintro rfl
      exact empty (trimmed_eq_nil_iff.mpr (isSilent_iff.mpr reads.scan_eq))
    have scanned : tokens? (trimmed raw) = some tokens := (tokens?_trimmed raw).trans reads.scan_eq
    rw [if_neg (by simpa using empty), scanned, readLine_eq reads, if_neg filled]

/-- A carriage return at the end of a line is white space like any other. -/
theorem readLine_return (draft : Draft) (raw : List Char) : draft.readLine (raw ++ ['\r']) = draft.readLine raw := by
  have kept := tokens?_blank raw [] (show isBlank '\r' = true by decide) (by simp)
  rw [List.append_nil] at kept
  exact readLine_congr kept draft

/-! ### Whole texts -/

theorem heard_eq_of_eqvGen {s t : List Char} (padded : Relation.EqvGen Pads s t) : heard (lines s) = heard (lines t) := by
  induction padded with
  | rel _ _ pads => exact pads.heard_eq
  | refl => rfl
  | symm _ _ _ ih => exact ih.symm
  | trans _ _ _ _ _ first second => exact first.trans second

/-- Two texts whose lines have the same tokens, blank lines left out, are read alike. So it does not matter what is
added or taken away that says nothing: comments, blank lines, carriage returns and white space that cuts no run. -/
theorem layout_irrelevant (s t : String) :
    (heard (lines s.toList) = heard (lines t.toList) → Alike s t) ∧
    (Relation.EqvGen Pads s.toList t.toList → heard (lines s.toList) = heard (lines t.toList) ∧
      ∀ spec, Spec.ofText s = .ok spec ↔ Spec.ofText t = .ok spec) ∧
    ∀ (draft : Draft) (raw : List Char), draft.readTrimmed raw = draft.readLine raw ∧
      draft.readTrimmed (raw ++ ['\r']) = draft.readLine raw := by
  refine ⟨alike_of_heard, fun padded => ?_, fun draft raw => ⟨readTrimmed_eq draft raw, ?_⟩⟩
  · have same := heard_eq_of_eqvGen padded
    refine ⟨same, fun spec => ?_⟩
    rcases alike_of_heard same with ⟨other, first, second⟩ | ⟨_, _, _, _, _, _, _, _, first, second⟩ | ⟨first, second⟩
    · rw [first, second]
    · rw [first, second]
      exact iff_of_false nofun nofun
    · rw [first, second]
      exact iff_of_false nofun nofun
  · rw [readTrimmed_eq, readLine_return]

/-- A text with a colon too many in its last line. -/
def dense : String := "start:S\nS -> a | b # or\nS -> c:"

/-- The same, spread out over more lines. -/
def spread : String := "# two rules\n\tstart : S\r\n\n  S -> a|b\n#\n S -> c\u2003:"

theorem dense_alike : heard (lines dense.toList) = heard (lines spread.toList) ∧ Alike dense spread ∧
    Spec.ofText dense = .error ⟨3, .unexpected .colon⟩ ∧ Spec.ofText spread = .error ⟨6, .unexpected .colon⟩ ∧
    Relation.EqvGen Pads "start:S".toList "start :S#\r".toList ∧
    ∀ spec, Spec.ofText "start:S" = .ok spec ↔ Spec.ofText "start :S#\r" = .ok spec := by
  have same : heard (lines dense.toList) = heard (lines spread.toList) := by decide +kernel
  have blank : Pads ("start".toList ++ ":S".toList) ("start".toList ++ ' ' :: ":S".toList) :=
    .blank (by decide) (by decide) (by simp [together, isNameChar])
  have comment : Pads ("start :S".toList ++ []) ("start :S".toList ++ '#' :: ['\r'] ++ []) :=
    .comment (by decide) (by simp)
  have padded := Relation.EqvGen.trans _ _ _ (.rel _ _ blank) (.rel _ _ comment)
  exact ⟨same, (layout_irrelevant dense spread).1 same, by decide +kernel, by decide +kernel, padded,
    ((layout_irrelevant "start:S" "start :S#\r").2.1 padded).2⟩

end ContextFree.Text
