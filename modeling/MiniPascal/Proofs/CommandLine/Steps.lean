import MiniPascal.CommandLine.Run
import MiniPascal.Proofs.Compile.Independent

/-!
# Steps of a run

A run on a recorded host is followed one step at a time.  What a step comes to depends on
the files alone: what was printed and complained about before is never read, and most steps
of a run only add to it.  A stage of the compilation comes to the same whatever the log
holds, so it does not matter that a run empties the log between the stages.
-/

namespace MiniPascal

namespace Compilation

variable {α : Type}

/-- What a stage comes to, without the context it leaves. -/
def outcome : EStateM.Result Diagnostic Context α → Except Diagnostic α
  | .ok value _ => .ok value
  | .error diagnostic _ => .error diagnostic

/-- The end of a stage with another log in the context. -/
def relogged (log : Log) : EStateM.Result Diagnostic Context α → EStateM.Result Diagnostic Context α
  | .ok value context => .ok value (context.onLog fun _ => log)
  | .error diagnostic context => .error diagnostic (context.onLog fun _ => log)

/-- A stage that begins with another log ends as it would, but for the log. -/
def IgnoresLog (stage : Compilation α) : Prop :=
  ∀ (context : Context) (log : Log), ∃ final,
    stage.run (context.onLog fun _ => log) = relogged final (stage.run context)

theorem ignoresLog_parse (tokens : List Located) : IgnoresLog (parse tokens) := by
  intro context log
  refine ⟨log.recordAll (Outline.parse tokens).trace, ?_⟩
  cases hparse : (Outline.parse tokens).result with
  | ok outline =>
      rw [run_parse_of_ok hparse, run_parse_of_ok hparse]
      rfl
  | error error =>
      rw [run_parse_of_error hparse, run_parse_of_error hparse]
      rfl

theorem ignoresLog_check (tree : Tree) : IgnoresLog (check tree) := by
  intro context log
  obtain ⟨hresult, htree⟩ := tree.check_log context.log log
  refine ⟨(tree.check log).log, ?_⟩
  cases hchecked : (tree.check context.log).result with
  | ok done =>
      have hrelogged : (tree.check (context.onLog fun _ => log).log).result = .ok () :=
        hresult.trans hchecked
      rw [run_check_of_ok hchecked, run_check_of_ok hrelogged, ← htree]
      rfl
  | error diagnostic =>
      have hrelogged : (tree.check (context.onLog fun _ => log).log).result = .error diagnostic :=
        hresult.trans hchecked
      rw [run_check_of_error hchecked, run_check_of_error hrelogged]
      rfl

theorem ignoresLog_generate (tree : Tree) : IgnoresLog (generate tree) := by
  intro context log
  refine ⟨log, ?_⟩
  change generate tree (context.onLog fun _ => log) = relogged log (generate tree context)
  unfold generate generateIn
  simp only [Context.onLog]
  cases ((Code.program tree (context.title?.getD tree.name)).run context.labels).result with
  | ok done => rfl
  | error fault => rfl

end Compilation

namespace CommandLine

/-- A step of a run on a recorded host, which can fail. -/
abbrev Step (α : Type) := ExceptT Diagnostic (StateM Recorded) α

namespace Step

variable {α β : Type}

/-- The outcome of a step on a host, and the host it leaves. -/
def on (step : Step α) (host : Recorded) : Except Diagnostic α × Recorded :=
  step.run.run host

/-- Whatever was printed before, the step ends well from the files, with `done`, or not, with
`failed`. -/
def Ends (step : Step α) (files : FileSystem) (done : α → FileSystem → Prop)
    (failed : Diagnostic → FileSystem → Prop) : Prop :=
  ∀ host : Recorded, host.files = files →
    (∃ value after, step.on host = (.ok value, after) ∧ done value after.files) ∨
    ∃ diagnostic after, step.on host = (.error diagnostic, after) ∧ failed diagnostic after.files

variable {files : FileSystem} {failed : Diagnostic → FileSystem → Prop}

theorem ends_pure {value : α} {done : α → FileSystem → Prop} (h : done value files) :
    Ends (pure value) files done failed := by
  rintro host rfl
  exact .inl ⟨value, host, rfl, h⟩

theorem ends_throw {diagnostic : Diagnostic} {done : α → FileSystem → Prop}
    (h : failed diagnostic files) : Ends (throw diagnostic) files done failed := by
  rintro host rfl
  exact .inr ⟨diagnostic, host, rfl, h⟩

/-- Of two steps in a row the second begins where the first ends well. -/
theorem ends_bind {first : Step α} {next : α → Step β} {done : β → FileSystem → Prop}
    (h : first.Ends files (fun value after => (next value).Ends after done failed) failed) :
    Ends (first >>= next) files done failed := by
  intro host hfiles
  have hrun : on (first >>= next) host =
      ExceptT.bindCont next (first.on host).1 (first.on host).2 := rfl
  rcases h host hfiles with ⟨value, after, hfirst, hnext⟩ | ⟨diagnostic, after, hfirst, hfailed⟩
  · rw [hrun, hfirst]
    exact hnext after rfl
  · rw [hrun, hfirst]
    exact .inr ⟨diagnostic, after, rfl, hfailed⟩

theorem Ends.mono {step : Step α} {done done' : α → FileSystem → Prop}
    (h : step.Ends files done failed)
    (himp : ∀ value after, done value after → done' value after) :
    step.Ends files done' failed := by
  intro host hfiles
  rcases h host hfiles with ⟨value, after, hstep, hdone⟩ | hfailed
  · exact .inl ⟨value, after, hstep, himp value after.files hdone⟩
  · exact .inr hfailed

/-- A value is taken on, or its diagnostic. -/
theorem ends_liftExcept {value : Except Diagnostic α} {done : α → FileSystem → Prop}
    (hok : ∀ result, value = .ok result → done result files)
    (herror : ∀ diagnostic, value = .error diagnostic → failed diagnostic files) :
    Ends (liftM value) files done failed := by
  rintro host rfl
  cases value with
  | ok result => exact .inl ⟨result, host, rfl, hok result rfl⟩
  | error diagnostic => exact .inr ⟨diagnostic, host, rfl, herror diagnostic rfl⟩

/-! ### Reporting -/

/-- A step that ends well with the files as they were. -/
def Silent (step : Step PUnit) : Prop :=
  ∀ files : FileSystem, step.Ends files (fun _ after => after = files) fun _ _ => False

/-- A silent step before another one can be left out. -/
theorem Silent.ends_bind {first : Step PUnit} {next : PUnit → Step β}
    {done : β → FileSystem → Prop} (hfirst : Silent first)
    (hnext : (next ⟨⟩).Ends files done failed) : Ends (first >>= next) files done failed := by
  intro host hfiles
  have hrun : on (first >>= next) host =
      ExceptT.bindCont next (first.on host).1 (first.on host).2 := rfl
  rcases hfirst files host hfiles with ⟨value, after, hstep, hsame⟩ | ⟨_, _, _, hfalse⟩
  · rw [hrun, hstep]
    exact hnext after hsame
  · exact hfalse.elim

theorem Silent.ends {step : Step PUnit} {done : PUnit → FileSystem → Prop} (h : Silent step)
    (hdone : done ⟨⟩ files) : step.Ends files done failed := by
  intro host hfiles
  rcases h files host hfiles with ⟨value, after, hstep, hsame⟩ | ⟨_, _, _, hfalse⟩
  · exact .inl ⟨value, after, hstep, hsame.symm ▸ hdone⟩
  · exact hfalse.elim

theorem silent_pure : Silent (pure ⟨⟩) := fun _ => ends_pure rfl

theorem Silent.bind {first : Step PUnit} {next : PUnit → Step PUnit} (hfirst : Silent first)
    (hnext : Silent (next ⟨⟩)) : Silent (first >>= next) := fun files =>
  hfirst.ends_bind (hnext files)

theorem silent_forM {α : Type} {step : α → Step PUnit} (h : ∀ item, Silent (step item))
    (items : List α) : Silent (items.forM step) := by
  induction items with
  | nil => exact silent_pure
  | cons item items ih => exact (h item).bind ih

theorem silent_printLine (pieces : List Piece) : Silent (printLine pieces) := by
  rintro _ host rfl
  exact .inl ⟨⟨⟩, _, rfl, rfl⟩

theorem silent_complain (line : String) : Silent (Host.complain line) := by
  rintro _ host rfl
  exact .inl ⟨⟨⟩, _, rfl, rfl⟩

theorem silent_explain (options : Options) (lines : List (List Piece)) :
    Silent (options.explain lines) := by
  unfold Options.explain
  split
  · exact silent_forM silent_printLine lines
  · exact silent_pure

theorem silent_printStatistics (statistics : Statistics) : Silent (printStatistics statistics) := by
  unfold printStatistics
  repeat refine (silent_printLine _).bind ?_
  exact silent_printLine _

/-! ### Files -/

theorem ends_readFile {path : String} {done : Except FileError ByteArray → FileSystem → Prop}
    (h : done (files.read path) files) : Ends (Host.readFile path) files done failed := by
  rintro host rfl
  exact .inl ⟨_, host, rfl, h⟩

theorem ends_writeFile {path : String} {content : ByteArray}
    {done : Except FileError Unit → FileSystem → Prop}
    (hok : ∀ after, files.write path content = .ok after → done (.ok ()) after)
    (herror : ∀ error, files.write path content = .error error → done (.error error) files) :
    Ends (Host.writeFile path content) files done failed := by
  rintro host rfl
  cases hwrite : host.files.write path content with
  | ok after =>
      have hrun : on (Host.writeFile path content) host =
          (.ok (.ok ()), { host with files := after }) := by
        simp only [on, Host.writeFile, bind_pure_comp, ExceptT.lift_bind, ExceptT.run_bind_lift,
          ExceptT.run_lift, StateT.run_bind, StateT.run_get, StateT.run_map, pure_bind, hwrite,
          StateT.run_modify, map_pure]
        rfl
      exact .inl ⟨.ok (), _, hrun, hok after hwrite⟩
  | error error =>
      have hrun : on (Host.writeFile path content) host = (.ok (.error error), host) := by
        simp only [on, Host.writeFile, bind_pure_comp, ExceptT.lift_bind, ExceptT.run_bind_lift,
          ExceptT.run_lift, StateT.run_bind, StateT.run_get, StateT.run_map, pure_bind, hwrite,
          StateT.run_pure, map_pure]
        rfl
      exact .inl ⟨.error error, host, hrun, herror error hwrite⟩

/-- Whatever the clock shows. -/
theorem ends_clock {done : Nat → FileSystem → Prop} (h : ∀ time, done time files) :
    Ends Host.clock files done failed := by
  rintro host rfl
  exact .inl ⟨0, host, rfl, h 0⟩

/-! ### Stages -/

theorem ends_flushLog {context : Context} {done : Context → FileSystem → Prop}
    (h : done (context.onLog Log.clear) files) : Ends (flushLog context) files done failed :=
  (silent_forM silent_complain _).ends_bind (ends_pure h)

/-- A stage is run as it would be with another log, and then the log is emptied. -/
theorem ends_runStage {stage : Compilation α} (hstage : stage.IgnoresLog) {context : Context}
    {log : Log} {done : α × Context → FileSystem → Prop}
    (hok : ∀ value final log, stage.run context = .ok value final →
      done (value, final.onLog fun _ => log) files)
    (herror : ∀ diagnostic final, stage.run context = .error diagnostic final →
      failed diagnostic files) :
    Ends (runStage stage (context.onLog fun _ => log)) files done failed := by
  obtain ⟨left, hrun⟩ := hstage context log
  unfold runStage
  rw [hrun]
  cases hstage : stage.run context with
  | ok value final =>
      have hdone := hok value final left.clear hstage
      exact ends_bind (ends_flushLog (ends_pure hdone))
  | error diagnostic final =>
      have hfailed := herror diagnostic final hstage
      exact ends_bind (ends_flushLog (ends_throw hfailed))

end Step

end CommandLine

end MiniPascal
