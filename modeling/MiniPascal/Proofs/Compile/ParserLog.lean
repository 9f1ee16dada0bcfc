import MiniPascal.Proofs.Binding.Notes
import MiniPascal.Proofs.Compile.Parsed
import MiniPascal.Proofs.Grammar.Paths

/-!
# The log of a parse

With its switch on, a log gets a line where a production is entered and one where it is
left, indented by how deep it stands.  The events of a parse are well nested, so the lines
are.  When the parse fails, the productions it has open are those on the path to the token
that it reports, and the log stays as deep as they are many.
-/

namespace MiniPascal

namespace Log

def enterLine (depth : Nat) (production : Production) : String :=
  indent depth ++ "<" ++ production.label ++ ">"

def leaveLine (depth : Nat) (production : Production) : String :=
  indent depth ++ "</" ++ production.label ++ ">"

/-- Lines that come in pairs at a depth, with the lines between a pair one level deeper. -/
inductive Nested : Nat → List String → Prop
  | nil {depth : Nat} : Nested depth []
  | pair {depth : Nat} {production : Production} {inner rest : List String}
      (h : Nested (depth + 1) inner) (h' : Nested depth rest) :
      Nested depth
        (enterLine depth production :: inner ++ leaveLine depth production :: rest)

/-- Lines at a depth that come in pairs but for those of the productions on a path, which
are entered and not left, each a level deeper than the one before. -/
inductive LeftOpen : Nat → List Production → List String → Prop
  | closed {depth : Nat} {lines : List String} (h : Nested depth lines) : LeftOpen depth [] lines
  | opened {depth : Nat} {production : Production} {path : List Production}
      {front inner : List String} (h : Nested depth front) (h' : LeftOpen (depth + 1) path inner) :
      LeftOpen depth (production :: path) (front ++ enterLine depth production :: inner)

/-- A log some levels deeper. -/
def deeper (levels : Nat) (log : Log) : Log :=
  { log with depth := log.depth + levels }

variable {log : Log} {events : List TraceEvent}

theorem recordAll_append (events events' : List TraceEvent) (log : Log) :
    log.recordAll (events ++ events') = (log.recordAll events).recordAll events' :=
  List.foldl_append

theorem recordAll_cons (event : TraceEvent) (events : List TraceEvent) (log : Log) :
    log.recordAll (event :: events) = (log.record event).recordAll events := rfl

theorem record_enter (hswitch : log.parser = true) (production : Production) :
    log.record (.enter production) = (log.append [enterLine log.depth production]).deeper 1 := by
  have hpush : log.lines ++ #[enterLine log.depth production] =
      log.lines.push (enterLine log.depth production) := Array.push_eq_append.symm
  rw [record, enter, if_pos hswitch, append, hpush]
  rfl

/-- What is left was entered one level higher, so the depth never falls below nothing. -/
theorem record_leave (hswitch : log.parser = true) (production : Production) :
    (log.deeper 1).record (.leave production) = log.append [leaveLine log.depth production] := by
  have hpush : log.lines ++ #[leaveLine log.depth production] =
      log.lines.push (leaveLine log.depth production) := Array.push_eq_append.symm
  have hdeeper : (log.deeper 1).parser = true := hswitch
  rw [record, leave, if_pos hdeeper, append, hpush]
  rfl

/-- A production adds a pair of lines around those of what is inside it. -/
theorem recordAll_pair (hswitch : log.parser = true) {production : Production} {lines : List String}
    (h : ((log.append [enterLine log.depth production]).deeper 1).recordAll events =
      ((log.append [enterLine log.depth production]).deeper 1).append lines) :
    log.recordAll (.enter production :: events ++ [.leave production]) =
      log.append (enterLine log.depth production :: lines ++ [leaveLine log.depth production]) := by
  have hlines : ((log.append [enterLine log.depth production]).deeper 1).append lines =
      (log.append (enterLine log.depth production :: lines)).deeper 1 :=
    congrArg (deeper 1) (append_append [enterLine log.depth production] lines log)
  have hswitch' : (log.append (enterLine log.depth production :: lines)).parser = true := hswitch
  rw [List.cons_append, recordAll_cons, record_enter hswitch, recordAll_append, h, hlines]
  exact (record_leave hswitch' production).trans (append_append _ _ log)

/-- Well nested events add well nested lines, and the depth is what it was. -/
theorem exists_nested_of_wellNested (h : WellNested events) (hswitch : log.parser = true) :
    ∃ lines, Nested log.depth lines ∧ log.recordAll events = log.append lines := by
  induction h generalizing log with
  | nil => exact ⟨[], .nil, (append_nil log).symm⟩
  | @pair production inner rest _ _ ih ih' =>
      have hpair : TraceEvent.enter production :: inner ++ .leave production :: rest =
          (.enter production :: inner ++ [.leave production]) ++ rest := by simp
      obtain ⟨lines, hnested, hinner⟩ :=
        @ih ((log.append [enterLine log.depth production]).deeper 1) hswitch
      obtain ⟨lines', hnested', hrest⟩ := @ih' (log.append
        (enterLine log.depth production :: lines ++ [leaveLine log.depth production])) hswitch
      have hpairs : Nested log.depth
          (enterLine log.depth production :: lines ++ leaveLine log.depth production :: lines') :=
        .pair hnested hnested'
      refine ⟨_, hpairs, ?_⟩
      rw [hpair, recordAll_append, recordAll_pair hswitch hinner, hrest, append_append]
      simp only [List.append_assoc, List.cons_append, List.nil_append]

/-- Events that leave a path open add such lines, and the log stays as deep as the path is
long. -/
theorem exists_leftOpen_of_leavesOpen {path : List Production} (h : LeavesOpen path events)
    (hswitch : log.parser = true) :
    ∃ lines, LeftOpen log.depth path lines ∧
      log.recordAll events = (log.append lines).deeper path.length := by
  induction h generalizing log with
  | closed h =>
      obtain ⟨lines, hnested, hrecord⟩ := exists_nested_of_wellNested h hswitch
      exact ⟨lines, .closed hnested, hrecord⟩
  | @opened production path front inner hfront _ ih =>
      obtain ⟨lines, hnested, hrecord⟩ := exists_nested_of_wellNested hfront hswitch
      have hswitch' : (log.append lines).parser = true := hswitch
      obtain ⟨lines', hopen, hinner⟩ :=
        @ih (((log.append lines).append [enterLine log.depth production]).deeper 1) hswitch
      have hdepth : log.depth + 1 + path.length = log.depth + (path.length + 1) := by omega
      have hlines : LeftOpen log.depth (production :: path)
          (lines ++ enterLine log.depth production :: lines') := .opened hnested hopen
      refine ⟨_, hlines, ?_⟩
      rw [recordAll_append, hrecord, recordAll_cons, record_enter hswitch']
      refine hinner.trans ?_
      simp [deeper, append, hdepth]

end Log

namespace Compilation

open Outline (tokenAt kinds)

variable {tokens : List Located} {context final : Context}

/-! ### Parses and what they record -/

theorem log_of_parse {tree : Tree} (h : (parse tokens).run context = .ok tree final) :
    final.log = context.log.recordAll (Outline.parse tokens).trace := by
  obtain ⟨outline, hresult, -⟩ := exists_outline_of_parse h
  rw [run_parse_of_ok hresult] at h
  cases h
  rfl

theorem exists_error_of_parse {diagnostic : Diagnostic}
    (h : (parse tokens).run context = .error diagnostic final) :
    ∃ error : Outline.SyntaxError, (Outline.parse tokens).result = .error error ∧
      diagnostic = error.diagnostic ∧
      final.log = context.log.recordAll (Outline.parse tokens).trace := by
  cases hresult : (Outline.parse tokens).result with
  | ok outline =>
      rw [run_parse_of_ok hresult] at h
      cases h
  | error error =>
      rw [run_parse_of_error hresult] at h
      cases h
      exact ⟨error, rfl, rfl, rfl⟩

/-- A parse that succeeds adds well nested lines, the outermost of the program. -/
theorem exists_nested_of_parse {tree : Tree} (hswitch : context.log.parser = true)
    (h : (parse tokens).run context = .ok tree final) :
    ∃ inner, Log.Nested (context.log.depth + 1) inner ∧
      final.log = context.log.append (Log.enterLine context.log.depth .program :: inner ++
        [Log.leaveLine context.log.depth .program]) := by
  obtain ⟨outline, hresult, -⟩ := exists_outline_of_parse h
  obtain ⟨events, hnested, htrace⟩ := Outline.exists_trace_of_ok hresult
  obtain ⟨inner, hinner, hrecord⟩ := @Log.exists_nested_of_wellNested
    ((context.log.append [Log.enterLine context.log.depth .program]).deeper 1) _ hnested hswitch
  refine ⟨inner, hinner, ?_⟩
  rw [log_of_parse h, htrace]
  exact Log.recordAll_pair hswitch hrecord

/-- A parse that fails adds lines that leave open a path to the token that is reported. -/
theorem exists_leftOpen_of_parse {diagnostic : Diagnostic}
    (hswitch : context.log.parser = true)
    (h : (parse tokens).run context = .error diagnostic final) :
    ∃ place ≤ tokens.length, ∃ expected path lines,
      diagnostic = .unexpectedToken expected.label (tokenAt tokens place).token.describe
        (tokenAt tokens place).line ∧
      Ebnf.Halts Production.program (kinds (tokens.take place)) path expected ∧
      Log.LeftOpen context.log.depth path lines ∧
      final.log = (context.log.append lines).deeper path.length := by
  obtain ⟨error, hresult, rfl, hlog⟩ := exists_error_of_parse h
  obtain ⟨place, hplace, path, hfound, hline, hhalts, hopen⟩ :=
    Outline.exists_trace_of_error hresult
  obtain ⟨lines, hlines, hrecord⟩ := Log.exists_leftOpen_of_leavesOpen hopen hswitch
  refine ⟨place, hplace, error.expected, path, lines, ?_, hhalts, hlines, hlog.trans hrecord⟩
  rw [Outline.SyntaxError.diagnostic, hfound, hline]

/-- **The log of a parse is well nested.**  With the switch on, a parse that succeeds adds a
pair of lines for the program with well nested lines between, and leaves the depth as it was.
A parse that fails adds lines that leave open the productions on a path from the program to
the token that is reported, and the depth grows by as many.  With the switch off the log is
left alone. -/
theorem parse_log_nested (tokens : List Located) (context : Context) :
    (context.log.parser = true →
      (∀ tree final, (parse tokens).run context = .ok tree final →
        ∃ inner, Log.Nested (context.log.depth + 1) inner ∧
          final.log = context.log.append (Log.enterLine context.log.depth .program :: inner ++
            [Log.leaveLine context.log.depth .program])) ∧
      ∀ diagnostic final, (parse tokens).run context = .error diagnostic final →
        ∃ place ≤ tokens.length, ∃ expected path lines,
          diagnostic = .unexpectedToken expected.label (tokenAt tokens place).token.describe
            (tokenAt tokens place).line ∧
          Ebnf.Halts Production.program (kinds (tokens.take place)) path expected ∧
          Log.LeftOpen context.log.depth path lines ∧
          final.log = (context.log.append lines).deeper path.length) ∧
    (context.log.parser = false →
      (∀ tree final, (parse tokens).run context = .ok tree final → final.log = context.log) ∧
      ∀ diagnostic final, (parse tokens).run context = .error diagnostic final →
        final.log = context.log) := by
  refine ⟨fun hswitch => ⟨?_, ?_⟩, fun hswitch => ⟨?_, ?_⟩⟩
  · exact fun tree final hrun => exists_nested_of_parse hswitch hrun
  · exact fun diagnostic final hrun => exists_leftOpen_of_parse hswitch hrun
  · intro tree final hrun
    rw [log_of_parse hrun, Log.recordAll_of_parser_off hswitch]
  · intro diagnostic final hrun
    obtain ⟨error, -, -, hlog⟩ := exists_error_of_parse hrun
    rw [hlog, Log.recordAll_of_parser_off hswitch]

/-- The tokens of a program without statements. -/
def withoutStatements : List Located :=
  [⟨.keyword .program, 1⟩, ⟨.name "p", 1⟩, ⟨.symbol .semicolon, 1⟩, ⟨.keyword .begin_, 1⟩,
    ⟨.keyword .end_, 1⟩, ⟨.symbol .dot, 1⟩, ⟨.endOfFile, 1⟩]

/-- The log of a program that is read, that of one that is not, and one that is off. -/
theorem parse_log_nested_semicolon :
    (∃ tree final, (parse withoutStatements).run (.fresh true false) = .ok tree final ∧
      final.log.lines = #["<program>", "  <block>", "    <statm-list>", "      <statement>",
        "      </statement>", "    </statm-list>", "  </block>", "</program>"] ∧
      ∃ inner, Log.Nested 1 inner ∧
        final.log = (Log.empty true false).append ("<program>" :: inner ++ ["</program>"])) ∧
    (∃ final, (parse Outline.withoutSemicolon).run (.fresh true false) =
        .error (.unexpectedToken ";" "begin" 2) final ∧
      final.log = { parser := true, binding := false, lines := #["<program>"], depth := 1 } ∧
      ∃ place ≤ Outline.withoutSemicolon.length, ∃ expected path lines,
        Ebnf.Halts Production.program (kinds (Outline.withoutSemicolon.take place)) path expected ∧
        Log.LeftOpen 0 path lines ∧
        final.log = ((Log.empty true false).append lines).deeper path.length) ∧
    ∃ tree final, (parse withoutStatements).run (.fresh false true) = .ok tree final ∧
      final.log = Log.empty false true := by
  obtain ⟨hread, -⟩ := (parse_log_nested withoutStatements (.fresh true false)).1 rfl
  obtain ⟨place, hplace, expected, path, lines, -, hrest⟩ :=
    ((parse_log_nested Outline.withoutSemicolon (.fresh true false)).1 rfl).2 _ _ rfl
  refine ⟨⟨_, _, rfl, rfl, hread _ _ rfl⟩,
    ⟨_, rfl, rfl, place, hplace, expected, path, lines, hrest⟩, _, _, rfl, ?_⟩
  exact ((parse_log_nested withoutStatements (.fresh false true)).2 rfl).1 _ _ rfl

end Compilation

end MiniPascal
