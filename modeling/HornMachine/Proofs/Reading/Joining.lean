import HornMachine.Proofs.Reading.Grammar
import HornMachine.Reading.Source

/-!
# Joined sources

A line feed ends the last line of a text, so what follows it is cut into lines of its own. A text
that is accepted leaves no statement begun and no parenthesis open: a statement ends outside
parentheses only, and behind the last one there are blanks. So the text behind it is cut into
statements as if it stood alone, but for the numbers of its lines. Each statement has variables of
its own, and all that a statement leaves to the next one are the names that were registered.

Main statement: behind an accepted text and a line feed a text is read as it is alone, its
statements follow, and the lines of its errors are counted on (`readSource_join`).
-/

namespace HornMachine.Reading

open HornMachine.Text

/-! ### Lines of joined texts -/

/-- The lines of a text, and those it has when a line feed ends the last one: a line that was ended
before is followed by an empty one, and a carriage return at the end of the text belongs to the line
feed. -/
inductive Ended : List (List Char) → List (List Char) → Prop
  | empty : Ended [] [[]]
  | last (line : List Char) : Ended [line] [line]
  | carriage (line : List Char) : Ended [line ++ ['\r']] [line]
  | cons (line : List Char) {before after : List (List Char)} (rest : Ended before after) :
    Ended (line :: before) (line :: after)

/-- Characters in front of a text stand on its first line. -/
theorem Ended.grow {first : List Char} {others after : List (List Char)}
    (ended : Ended (first :: others) after) (c : Char) :
    ∃ line rest, after = line :: rest ∧ Ended ((c :: first) :: others) ((c :: line) :: rest) := by
  cases ended with
  | last => exact ⟨_, _, rfl, .last (c :: first)⟩
  | carriage line => exact ⟨line, _, rfl, .carriage (c :: line)⟩
  | cons _ rest => exact ⟨_, _, rfl, .cons (c :: first) rest⟩

private theorem lines_ne_nil {text : List Char} (nonempty : text ≠ []) : lines text ≠ [] := by
  fun_cases lines text <;> simp_all

/-- A line feed divides the lines of a text from those of what follows. -/
theorem exists_lines_join (text : List Char) :
    ∃ after, Ended (lines text) after ∧ after.length = 1 + text.count '\n' ∧
      ∀ more, lines (text ++ '\n' :: more) = after ++ lines more := by
  fun_induction lines text with
  | case1 => exact ⟨[[]], .empty, rfl, fun more ↦ by simp [lines]⟩
  | case2 rest ih =>
    obtain ⟨after, ended, count, joined⟩ := ih
    exact ⟨[] :: after, .cons [] ended, by simp [count]; omega, fun more ↦ by simp [lines, joined]⟩
  | case3 rest ih =>
    obtain ⟨after, ended, count, joined⟩ := ih
    exact ⟨[] :: after, .cons [] ended, by simp [count]; omega, fun more ↦ by simp [lines, joined]⟩
  | case4 c rest feed carriage nothing ih =>
    obtain rfl : rest = [] := by_contra fun some_rest ↦ lines_ne_nil some_rest nothing
    have count : [c].count '\n' = 0 := List.count_eq_zero.2 (by simpa using Ne.symm feed)
    by_cases returns : c = '\r'
    · subst returns
      exact ⟨[[]], .carriage [], rfl, fun more ↦ by simp [lines]⟩
    · exact ⟨[[c]], .last [c], by rw [count]; rfl, fun more ↦ by simp [lines, returns]⟩
  | case5 c rest feed carriage first others split ih =>
    obtain ⟨after, ended, count, joined⟩ := ih
    rw [split] at ended
    obtain ⟨line, later, rfl, grown⟩ := ended.grow c
    refine ⟨_, grown, ?_, fun more ↦ ?_⟩
    · rw [List.count_cons_of_ne feed, ← count]
      rfl
    · -- what follows the first character is not empty, so its line feed is not the one that was
      -- put there
      have apart (tail : List Char) (returns : c = '\r')
          (feeds : rest ++ '\n' :: more = '\n' :: tail) : False := by
        cases rest with
        | nil => simp [lines] at split
        | cons next rest => exact carriage rest returns (by rw [(List.cons.inj feeds).1])
      rw [List.cons_append, lines, joined more]
      · rfl
      · exact feed
      · exact apart

/-! ### Cutting joined texts -/

private theorem isBlank_space : isBlank ' ' = true := by decide

private theorem isBlank_carriage : isBlank '\r' = true := by decide

/-- The place of a statement further down. -/
def lowered (lines : Nat) (part : Nat × List Char) : Nat × List Char := (part.1 + lines, part.2)

namespace Cutting

/-- Cuttings that go on alike: where no statement is begun, the line of its start is not set yet. -/
structure Alike (cut other : Cutting) : Prop where
  done : other.done = cut.done
  buffer : other.buffer = cut.buffer
  depth : other.depth = cut.depth
  start : cut.buffer ≠ [] → other.start = cut.start

namespace Alike

variable {cut other : Cutting}

theorem refl (cut : Cutting) : cut.Alike cut := ⟨rfl, rfl, rfl, fun _ ↦ rfl⟩

private theorem eq_of_begun (alike : cut.Alike other) (begun : cut.buffer ≠ []) : other = cut := by
  obtain ⟨done, buffer, depth, start⟩ := alike
  cases other
  cases cut
  simp_all

theorem enter (alike : cut.Alike other) (line : Nat) : other.enter line = cut.enter line := by
  by_cases begun : cut.buffer = []
  · obtain ⟨done, buffer, depth, -⟩ := alike
    simp [Cutting.enter, done, buffer, depth, begun]
  · rw [alike.eq_of_begun begun]

theorem addLine (alike : cut.Alike other) (line : Nat) (text : List Char) :
    (addLine line text cut).Alike (addLine line text other) := by
  cases text with
  | nil =>
    by_cases begun : cut.buffer = []
    · simpa [Cutting.addLine, Cutting.push, alike.buffer, begun, isBlank_space] using alike
    · rw [alike.eq_of_begun begun]
      exact .refl _
  | cons c rest =>
    rw [Cutting.addLine, Cutting.addLine, alike.enter line]
    exact .refl _

theorem addLines (alike : cut.Alike other) (line : Nat) (texts : List (List Char)) :
    (addLines line texts cut).Alike (addLines line texts other) := by
  induction texts generalizing cut other line with
  | nil => exact alike
  | cons text texts ih => exact ih (alike.addLine line (dropComment text)) (line + 1)

end Alike

/-- A cutting further down, behind other statements. -/
def behind (lines : Nat) (before : List (Nat × List Char)) (cut : Cutting) : Cutting :=
  { cut with done := cut.done.map (lowered lines) ++ before, start := cut.start + lines }

section

variable (lines : Nat) (before : List (Nat × List Char))

private theorem enter_behind (cut : Cutting) (line : Nat) :
    (cut.behind lines before).enter (line + lines) = (cut.enter line).behind lines before := by
  unfold enter behind
  split <;> rfl

private theorem push_behind (cut : Cutting) (c : Char) :
    (cut.behind lines before).push c = (cut.push c).behind lines before := by
  unfold push behind
  split <;> rfl

private theorem addLine_behind (line : Nat) (text : List Char) (cut : Cutting) :
    addLine (line + lines) text (cut.behind lines before) =
      (addLine line text cut).behind lines before := by
  induction text generalizing cut with
  | nil => exact push_behind lines before cut ' '
  | cons c rest ih =>
    rw [addLine, addLine, enter_behind]
    have ends : ((cut.enter line).behind lines before).endsBefore rest =
      (cut.enter line).endsBefore rest := rfl
    rw [ends]
    split
    · exact ih (cut.enter line).close
    · rw [push_behind]
      exact ih _

/-- A text is cut further down as it is cut above, but for the lines. -/
theorem addLines_behind (line : Nat) (texts : List (List Char)) (cut : Cutting) :
    addLines (line + lines) texts (cut.behind lines before) =
      (addLines line texts cut).behind lines before := by
  induction texts generalizing cut line with
  | nil => rfl
  | cons text texts ih =>
    rw [addLines, addLines, addLine_behind, Nat.add_right_comm]
    exact ih (line + 1) _

end

private theorem addLines_append (line : Nat) (texts others : List (List Char)) (cut : Cutting) :
    addLines line (texts ++ others) cut = addLines (line + texts.length) others
      (addLines line texts cut) := by
  induction texts generalizing cut line with
  | nil => rfl
  | cons text texts ih =>
    rw [List.cons_append, addLines, addLines, ih, List.length_cons, Nat.add_assoc, Nat.add_comm 1]

/-- Where no statement is begun no parenthesis is open. -/
def Balanced (cut : Cutting) : Prop := cut.buffer = [] → cut.depth = 0

theorem Balanced.addLine {cut : Cutting} (balanced : cut.Balanced) (line : Nat) (text : List Char) :
    (addLine line text cut).Balanced := by
  have push {cut : Cutting} (balanced : cut.Balanced) (c : Char) : (cut.push c).Balanced := by
    unfold Cutting.push
    split
    · exact balanced
    · exact fun nothing ↦ absurd nothing (List.cons_ne_nil _ _)
  induction text generalizing cut with
  | nil => exact push balanced ' '
  | cons c rest ih =>
    rw [Cutting.addLine]
    have entered : (cut.enter line).Balanced := by
      unfold enter
      split <;> exact balanced
    split
    · next ends =>
      have outside : (cut.enter line).depth = 0 := by
        simp only [endsBefore, Bool.and_eq_true, decide_eq_true_eq] at ends
        exact ends.2.1
      exact ih fun _ ↦ outside
    · exact ih (push entered c)

theorem Balanced.addLines {cut : Cutting} (balanced : cut.Balanced) (line : Nat)
    (texts : List (List Char)) :
    (addLines line texts cut).Balanced := by
  induction texts generalizing cut line with
  | nil => exact balanced
  | cons text texts ih => exact ih (balanced.addLine line (dropComment text)) (line + 1)

private theorem push_of_isBlank {cut : Cutting} (nothing : cut.buffer = []) {c : Char}
    (blank : isBlank c = true) :
    cut.push c = cut := by
  simp [push, nothing, blank]

private theorem buffer_push_ne_nil {cut : Cutting} (begun : cut.buffer ≠ []) (c : Char) :
    (cut.push c).buffer ≠ [] := by
  simp [push, begun]

/-- Nothing is changed by a carriage return at the end of a line behind which no statement is
begun. -/
theorem addLine_carriage {line : Nat} {text : List Char} {cut : Cutting}
    (closed : (addLine line (text ++ ['\r']) cut).buffer = []) :
    (addLine line (text ++ ['\r']) cut).Alike (addLine line text cut) := by
  induction text generalizing cut with
  | nil =>
    have run : addLine line ['\r'] cut = ((cut.enter line).push '\r').push ' ' := by simp [addLine]
    rw [List.nil_append, run] at closed
    rw [List.nil_append, run, addLine]
    by_cases nothing : cut.buffer = []
    · have entered : cut.enter line = { cut with start := line } :=
        if_pos (List.isEmpty_iff.2 nothing)
      have still : (cut.enter line).buffer = [] := by rw [entered, nothing]
      rw [push_of_isBlank still isBlank_carriage, push_of_isBlank still isBlank_space,
        push_of_isBlank nothing isBlank_space, entered]
      exact ⟨rfl, rfl, rfl, fun begun ↦ absurd nothing begun⟩
    · have entered : cut.enter line = cut := if_neg (by simpa using nothing)
      rw [entered] at closed
      exact absurd closed (buffer_push_ne_nil (buffer_push_ne_nil nothing _) _)
  | cons c rest ih =>
    have ends : (cut.enter line).endsBefore (rest ++ ['\r']) =
      (cut.enter line).endsBefore rest := by
      cases rest with
      | nil => simp [endsBefore, isBlank_carriage]
      | cons next rest => rfl
    rw [List.cons_append, addLine, ends] at closed ⊢
    rw [addLine]
    split at closed
    · next here =>
      rw [if_pos here, if_pos here]
      exact ih closed
    · next here =>
      rw [if_neg here, if_neg here]
      exact ih closed

/-- Lines that a line feed ends are cut as before, if no statement is begun behind them. -/
theorem addLines_ended {before after : List (List Char)} (ended : Ended before after) {line : Nat}
    {cut : Cutting} (closed : (addLines line before cut).buffer = []) :
    (addLines line before cut).Alike (addLines line after cut) := by
  induction ended generalizing line cut with
  | empty =>
    have still : addLines line [[]] cut = cut := push_of_isBlank closed isBlank_space
    rw [still]
    exact .refl cut
  | last text => exact .refl _
  | carriage text =>
    simp only [addLines, dropComment, List.takeWhile_append] at closed ⊢
    split at closed
    · next whole =>
      have kept := (List.takeWhile_prefix fun c : Char ↦ decide (c ≠ '%')).eq_of_length whole
      rw [if_pos whole, kept]
      exact addLine_carriage closed
    · next comment =>
      rw [if_neg comment]
      exact .refl _
  | cons text rest ih => exact ih closed

end Cutting

/-- Behind an accepted text and a line feed a text is cut as it is alone, but for the lines. -/
theorem cutStatements_join {text : List Char} {parts : List (Nat × List Char)}
    (accepted : cutStatements text = .ok parts) (more : List Char) :
    cutStatements (text ++ '\n' :: more) =
      match cutStatements more with
      | .ok others => .ok (parts ++ others.map (lowered (1 + text.count '\n')))
      | .error error => .error { error with line := error.line + (1 + text.count '\n') } := by
  obtain ⟨after, ended, count, joined⟩ := exists_lines_join text
  have balanced : (Cutting.addLines 1 (lines text) {}).Balanced :=
    .addLines (fun _ ↦ rfl) 1 (lines text)
  rw [cutStatements] at accepted
  split at accepted
  · next closed =>
    cases accepted
    rw [List.isEmpty_iff] at closed
    have same := Cutting.addLines_ended ended closed
    generalize Cutting.addLines 1 (lines text) {} = cut at same closed balanced ⊢
    have fresh : (Cutting.behind (1 + text.count '\n') cut.done {}).Alike
      (Cutting.addLines 1 after {}) :=
      ⟨same.done, same.buffer.trans closed, same.depth.trans (balanced closed), fun begun ↦
        absurd rfl begun⟩
    have further := fresh.addLines (1 + (1 + text.count '\n')) (lines more)
    rw [Cutting.addLines_behind] at further
    rw [cutStatements, joined, Cutting.addLines_append, count, cutStatements]
    generalize Cutting.addLines 1 (lines more) {} = alone at further ⊢
    generalize Cutting.addLines (1 + (1 + text.count '\n')) (lines more) _ = both at further ⊢
    have buffer : both.buffer = alone.buffer := further.buffer
    have done : both.done = alone.done.map (lowered (1 + text.count '\n')) ++ cut.done :=
      further.done
    rw [buffer]
    split
    · simp [done]
    · next begun =>
      have start : both.start = alone.start + (1 + text.count '\n') :=
        further.start fun nothing ↦ begun (List.isEmpty_iff.2 nothing)
      simp [start]
  · cases accepted

/-! ### Readings with variables of their own -/

variable {α β : Type}

/-- What a reading gives on a session, without the variables it leaves there. -/
def outcome (reading : Reading α) (session : Session) : Except ParseError α × SymbolTable :=
  match reading session with
  | .ok value later => (.ok value, later.symbols)
  | .error error later => (.error error, later.symbols)

/-- Of what was read before, such a reading sees the names that were registered only. -/
def SelfContained (reading : Reading α) : Prop :=
  ∀ session : Session, reading.outcome session = reading.run session.symbols

private theorem selfContained_newScope (next : Unit → Reading α) :
    SelfContained (newScope >>= next) := fun _ ↦ rfl

private theorem selfContained_pure (value : α) : SelfContained (pure value) := fun _ ↦ rfl

private theorem selfContained_fail (column : Nat) (issue : ParseIssue) :
    SelfContained (fail column issue : Reading α) :=
  fun _ ↦ rfl

private theorem selfContained_intern (name : String) : SelfContained (intern name) := fun _ ↦ rfl

/-- What a second part gives behind what the first one gave. -/
def follow (first : Except ParseError α × SymbolTable)
    (next : α → SymbolTable → Except ParseError β × SymbolTable) :
    Except ParseError β × SymbolTable :=
  match first with
  | (.ok value, symbols) => next value symbols
  | (.error error, symbols) => (.error error, symbols)

/-- A reading in two parts gives what the second part gives behind the first. -/
theorem outcome_bind (first : Reading α) {next : α → Reading β}
    (later : ∀ value, SelfContained (next value)) (session : Session) :
    outcome (first >>= next) session = follow (outcome first session) fun value ↦
      (next value).run := by
  rw [outcome, outcome, bind_apply]
  cases first session with
  | ok value middle => exact later value middle
  | error error middle => rfl

private theorem outcome_adaptExcept (f : ParseError → ParseError) (reading : Reading α)
    (session : Session) :
    outcome (EStateM.adaptExcept f reading) session =
      ((outcome reading session).1.mapError f, (outcome reading session).2) := by
  rw [outcome, outcome, EStateM.adaptExcept]
  cases reading session <;> rfl

namespace SelfContained

theorem bind {first : Reading α} (one : SelfContained first) {next : α → Reading β}
    (two : ∀ value, SelfContained (next value)) : SelfContained (first >>= next) := by
  intro session
  have alone :
      (first >>= next).run session.symbols = outcome (first >>=
        next) { symbols := session.symbols } := rfl
  rw [alone, outcome_bind first two, outcome_bind first two, one session]
  rfl

theorem map {reading : Reading α} (one : SelfContained reading) (f : α → β) :
    SelfContained (f <$> reading) :=
  one.bind fun value ↦ selfContained_pure (f value)

theorem mapM {f : α → Reading β} (each : ∀ x, SelfContained (f x)) (xs : List α) :
    SelfContained (xs.mapM f) := by
  induction xs with
  | nil => exact selfContained_pure []
  | cons x xs ih =>
    rw [List.mapM_cons]
    exact (each x).bind fun _ ↦ ih.bind fun _ ↦ selfContained_pure _

theorem onLine {reading : Reading α} (one : SelfContained reading) (line : Nat) :
    SelfContained (onLine line reading) := by
  intro session
  rw [Reading.onLine, outcome_adaptExcept, one session]
  exact (outcome_adaptExcept _ reading { symbols := session.symbols }).symm

end SelfContained

private theorem selfContained_readIndicator (text : List Char) :
    SelfContained (readIndicator text) := by
  unfold readIndicator
  split
  · exact selfContained_fail _ _
  · next before after _ =>
    dsimp only
    split
    · exact selfContained_fail _ _
    · split
      · exact selfContained_fail _ _
      · exact (selfContained_intern _).bind fun _ ↦ selfContained_pure _

/-- Each statement has variables of its own. -/
theorem selfContained_readStatement (text : List Char) : SelfContained (readStatement text) := by
  unfold readStatement
  split
  · next goal _ =>
      exact SelfContained.map (selfContained_newScope fun _ ↦ readTerm (dropPeriod goal)) _
  · split
    · next directive _ =>
      unfold readDirective
      split
      · exact selfContained_fail _ _
      · exact (SelfContained.mapM selfContained_readIndicator _).bind fun _ ↦ selfContained_pure _
    · refine SelfContained.bind (selfContained_newScope _) fun rule ↦ ?_
      split <;> exact selfContained_pure _

/-! ### Reading joined texts -/

/-- Read the statements that a text was cut into. -/
def readParts (parts : List (Nat × List Char)) : Reading (List Statement) :=
  parts.mapM fun part ↦ onLine part.1 (readStatement part.2)

private theorem selfContained_readParts (parts : List (Nat × List Char)) :
    SelfContained (readParts parts) :=
  SelfContained.mapM (fun part : Nat × List Char ↦
    (selfContained_readStatement part.2).onLine part.1) parts

/-- What a text cut into statements is read as. -/
theorem run_readSource (text : List Char) (symbols : SymbolTable) :
    (readSource text).run symbols =
      match cutStatements text with
      | .error error => (.error error, symbols)
      | .ok parts => follow ((readParts parts).run symbols) fun statements later ↦
        (.ok ⟨statements⟩, later) := by
  rw [readSource]
  cases cutStatements text with
  | error error => rfl
  | ok parts =>
    exact outcome_bind (readParts parts) (fun statements ↦
      selfContained_pure (Source.mk statements)) { symbols }

private theorem adaptExcept_bind (f : ParseError → ParseError) (first : Reading α)
    (next : α → Reading β) :
    EStateM.adaptExcept f (first >>= next) =
      EStateM.adaptExcept f first >>= fun value ↦ EStateM.adaptExcept f (next value) := by
  funext session
  rw [EStateM.adaptExcept, bind_apply, bind_apply, EStateM.adaptExcept]
  cases first session <;> rfl

/-- Statements further down are read as they are above, but for the lines of errors. -/
theorem readParts_lowered (lines : Nat) (parts : List (Nat × List Char)) :
    readParts (parts.map (lowered lines)) =
      EStateM.adaptExcept (fun error ↦ { error with line := error.line + lines })
        (readParts parts) := by
  induction parts with
  | nil => rfl
  | cons part parts ih =>
    have here : onLine (part.1 + lines) (readStatement part.2) =
        EStateM.adaptExcept (fun error ↦ { error with line := error.line + lines })
          (onLine part.1 (readStatement part.2)) := by
      funext session
      rw [onLine, onLine, EStateM.adaptExcept, EStateM.adaptExcept, EStateM.adaptExcept]
      cases readStatement part.2 session <;> rfl
    have step (part : Nat × List Char) (parts : List (Nat × List Char)) :
      readParts (part :: parts) =
        onLine part.1 (readStatement part.2) >>= fun statement ↦ readParts parts >>= fun others ↦
          pure (statement :: others) := List.mapM_cons
    rw [List.map_cons, step, step, ih, adaptExcept_bind]
    simp only [adaptExcept_bind]
    rw [← here]
    rfl

/-- Statements behind others are read with the names that those registered. -/
theorem run_readParts_append {parts : List (Nat × List Char)} {symbols middle : SymbolTable}
    {statements : List Statement} (first : (readParts parts).run symbols = (.ok statements, middle))
    (others : List (Nat × List Char)) :
    (readParts (parts ++ others)).run symbols =
      follow ((readParts others).run middle) fun more last ↦ (.ok (statements ++ more), last) := by
  have parted : readParts (parts ++ others) =
      readParts parts >>= fun before ↦ readParts others >>= fun after ↦ pure (before ++ after) :=
        List.mapM_append
  have rest (before : List Statement) :
      SelfContained (readParts others >>= fun after ↦ pure (before ++ after)) :=
    (selfContained_readParts others).bind fun after ↦ selfContained_pure (before ++ after)
  have run : outcome (readParts parts) { symbols } = (.ok statements, middle) := first
  have joined := outcome_bind (readParts parts) rest { symbols }
  rw [run] at joined
  rw [parted]
  exact joined.trans (outcome_bind (readParts others) (fun after ↦
    selfContained_pure (statements ++ after))
    { symbols := middle })

/-- An accepted text has its statements in front of what follows a line feed behind it: this is read
with the names that were registered, as it is read alone, and errors are as many lines further
down. -/
theorem readSource_join {text : List Char} {symbols middle : SymbolTable} {source : Source}
    (accepted : (readSource text).run symbols = (.ok source, middle)) (more : List Char) :
    (∀ (other : Source) (last : SymbolTable), (readSource more).run middle = (.ok other, last) →
      (readSource (text ++ '\n' :: more)).run symbols =
      (.ok ⟨source.statements ++ other.statements⟩, last)) ∧
    ∀ (error : ParseError) (last : SymbolTable),
      (readSource more).run middle = (.error error, last) →
      ((readSource (text ++ '\n' :: more)).run symbols).1 =
        .error { error with line := error.line + (1 + text.count '\n') } := by
  rw [run_readSource] at accepted
  cases cut : cutStatements text with
  | error error =>
    rw [cut] at accepted
    cases accepted
  | ok parts =>
    rw [cut] at accepted
    have first : (readParts parts).run symbols = (.ok source.statements, middle) := by
      have read : follow ((readParts parts).run symbols) (fun statements later ↦
        (.ok ⟨statements⟩, later)) =
        (.ok source, middle) := accepted
      generalize (readParts parts).run symbols = result at read ⊢
      obtain ⟨_ | statements, later⟩ := result <;> cases read
      rfl
    rw [run_readSource, run_readSource, cutStatements_join cut more]
    cases cutStatements more with
    | error error =>
      constructor
      · rintro _ _ ⟨⟩
      · rintro _ _ ⟨⟩
        rfl
    | ok others =>
      have further : (readParts (others.map (lowered (1 + text.count '\n')))).run middle =
          (((readParts others).run middle).1.mapError fun error ↦
            { error with line := error.line + (1 + text.count '\n') },
              ((readParts others).run middle).2) := by
        rw [readParts_lowered]
        exact outcome_adaptExcept _ _ _
      dsimp only
      rw [run_readParts_append first, further]
      obtain ⟨_ | statements, later⟩ := (readParts others).run middle
      · constructor
        · rintro _ _ ⟨⟩
        · rintro _ _ ⟨⟩
          rfl
      · constructor
        · rintro _ _ ⟨⟩
          rfl
        · rintro _ _ ⟨⟩

/-- The goal `p` is read as the atom whose name is registered for it. -/
theorem run_readParts_goal (line : Nat) (symbols : SymbolTable) :
    (readParts [(line, "?- p".toList)]).run symbols =
      (.ok [.goal (.atom (symbols.intern "p").1)], (symbols.intern "p").2) := by
  have goal : afterStart? "?-".toList (trim "?- p".toList) = some " p".toList := by decide +kernel
  have name : dropPeriod " p".toList = ['p'] := by decide +kernel
  have word : readTerm ['p'] = Term.atom <$> intern "p" := by
    rw [readTerm_of_word ⟨List.cons_ne_nil _ _, List.forall_mem_singleton.2 rfl⟩, readWord]
    rfl
  have read : readStatement "?- p".toList =
      Statement.goal <$> (newScope >>= fun _ ↦ Term.atom <$> intern "p") := by
    rw [readStatement, goal]
    dsimp only
    rw [readSingleTerm, name, word]
  rw [readParts, List.mapM_cons, read]
  rfl

/-- Behind a goal with a comment over it and a carriage return there is the goal again, or a
statement that is not ended. -/
theorem readSource_join_goals :
    let (symbol, middle) := SymbolTable.empty.intern "p"
    let (again, last) := middle.intern "p"
    (readSource ("% p\n?- p.\r".toList ++ '\n' :: "?- p.".toList)).run .empty =
        (.ok ⟨[.goal (.atom symbol), .goal (.atom again)]⟩, last) ∧
      ((readSource ("% p\n?- p.\r".toList ++ '\n' :: "p".toList)).run .empty).1 =
        .error ⟨3, 1, .missingPeriod⟩ := by
  have cut : cutStatements "% p\n?- p.\r".toList = .ok [(2, "?- p".toList)] := by decide +kernel
  have cut_again : cutStatements "?- p.".toList = .ok [(1, "?- p".toList)] := by decide +kernel
  have refused : cutStatements "p".toList = .error ⟨1, 1, .missingPeriod⟩ := by decide +kernel
  have accepted : (readSource "% p\n?- p.\r".toList).run .empty =
      (.ok ⟨[.goal (.atom (SymbolTable.empty.intern "p").1)]⟩,
        (SymbolTable.empty.intern "p").2) := by
    rw [run_readSource, cut]
    dsimp only
    rw [run_readParts_goal]
    rfl
  constructor
  · refine (readSource_join accepted "?- p.".toList).1 ⟨[_]⟩ _ ?_
    rw [run_readSource, cut_again]
    dsimp only
    rw [run_readParts_goal]
    rfl
  · refine (readSource_join accepted "p".toList).2 ⟨1, 1, .missingPeriod⟩
      (SymbolTable.empty.intern "p").2 ?_
    rw [run_readSource, refused]

end HornMachine.Reading
