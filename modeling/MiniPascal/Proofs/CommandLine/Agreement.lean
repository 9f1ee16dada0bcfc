import MiniPascal.Proofs.CommandLine.Steps
import MiniPascal.Proofs.Files.Writing

/-!
# The command line and the library

A run of the command line goes through the stages of a compilation one by one, with reports
in between, and writes the listing at the end.  It comes to what reading the input,
compiling it in a fresh context, and writing the listing come to in a row, and until it
writes it changes no file.
-/

namespace MiniPascal.CommandLine

open MiniPascal.Assembly

/-- The library's functions in a row: the input is read, compiled in a fresh context, and
its listing is written. -/
def Options.pipeline (options : Options) : Step Listing := do
  let source ← readSource options.input
  let listing ← Compilation.outcome ((compile source).run (.fresh false false))
  writeAssembly options.target listing.render
  return listing

/-! ### Reading and writing -/

/-- The text of the file that a path leads to, if it is an input file. -/
def sourceText (files : FileSystem) (path : String) : Except Diagnostic String :=
  if Path.extension? path = some sourceExtension then textOf path (files.read path)
  else .error (.fileRead "File must have a .pas extension")

def written (files : FileSystem) (path text : String) : Except Diagnostic FileSystem :=
  match files.write path text.toUTF8 with
  | .ok after => .ok after
  | .error error => .error (.fileWrite (path ++ ": " ++ error.message))

/-- What reading, compiling and writing come to: the listing and the files after it is written. -/
def Options.comesTo (options : Options) (files : FileSystem) :
    Except Diagnostic (Listing × FileSystem) := do
  let source ← sourceText files options.input
  let listing ← Compilation.outcome ((compile source).run (.fresh false false))
  let after ← written files options.target listing.render
  return (listing, after)

namespace Options

variable {options : Options} {files : FileSystem} {source : String} {diagnostic : Diagnostic}

theorem comesTo_of_unread (hread : sourceText files options.input = .error diagnostic) :
    options.comesTo files = .error diagnostic := by
  rw [comesTo, hread]
  rfl

theorem comesTo_of_refused (hread : sourceText files options.input = .ok source)
    (hcompile : Compilation.outcome ((compile source).run (.fresh false false)) =
      .error diagnostic) :
    options.comesTo files = .error diagnostic := by
  rw [comesTo, hread]
  change (Compilation.outcome ((compile source).run (.fresh false false)) >>= _) = _
  rw [hcompile]
  rfl

/-- Once the input is compiled, the writing decides. -/
theorem comesTo_of_compiled (hread : sourceText files options.input = .ok source)
    {listing : Listing}
    (hcompile : Compilation.outcome ((compile source).run (.fresh false false)) = .ok listing) :
    options.comesTo files =
      (written files options.target listing.render).map fun after => (listing, after) := by
  rw [comesTo, hread]
  change (Compilation.outcome ((compile source).run (.fresh false false)) >>= _) = _
  rw [hcompile]
  rfl

/-- The listing is found where it was written, and nothing else changed. -/
theorem exists_of_comesTo {listing : Listing} {after : FileSystem}
    (h : options.comesTo files = .ok (listing, after)) :
    after.read options.target = .ok listing.render.toUTF8 ∧
      ∃ place, files.creationPlace options.target = .ok place ∧
        ∀ other ≠ place, after.entry? other = files.entry? other := by
  cases hread : sourceText files options.input with
  | error diagnostic =>
      rw [comesTo_of_unread hread] at h
      cases h
  | ok source =>
      cases hcompile : Compilation.outcome ((compile source).run (.fresh false false)) with
      | error diagnostic =>
          rw [comesTo_of_refused hread hcompile] at h
          cases h
      | ok compiled =>
          rw [comesTo_of_compiled hread hcompile, written] at h
          cases hwrite : files.write options.target compiled.render.toUTF8 with
          | error error =>
              rw [hwrite] at h
              cases h
          | ok final =>
              rw [hwrite] at h
              cases h
              obtain ⟨place, hplace, -, hfound, hother⟩ := FileSystem.exists_of_write hwrite
              exact ⟨hfound, place, hplace, hother⟩

end Options

namespace Step

variable {files : FileSystem} {failed : Diagnostic → FileSystem → Prop}

theorem ends_readSource (path : String) {done : String → FileSystem → Prop}
    (hok : ∀ text, sourceText files path = .ok text → done text files)
    (herror : ∀ diagnostic, sourceText files path = .error diagnostic → failed diagnostic files) :
    Ends (readSource path) files done failed := by
  unfold readSource
  split
  · next hextension =>
      rw [sourceText, if_pos hextension] at hok herror
      exact ends_bind (ends_readFile (ends_liftExcept hok herror))
  · next hextension => exact ends_throw (herror _ (if_neg hextension))

theorem ends_writeAssembly (path text : String) {done : Unit → FileSystem → Prop}
    (hok : ∀ after, written files path text = .ok after → done () after)
    (herror : ∀ diagnostic, written files path text = .error diagnostic →
      failed diagnostic files) :
    Ends (writeAssembly path text) files done failed := by
  unfold writeAssembly
  unfold written at hok herror
  refine ends_bind (ends_writeFile (fun after hwrite => ?_) fun error hwrite => ?_)
  · rw [hwrite] at hok
    exact ends_pure (hok after rfl)
  · rw [hwrite] at herror
    exact ends_throw (herror _ rfl)

end Step

/-! ### The stages -/

section

open Compilation

variable {source : String} {tokens : List Located} {tree checked : Tree} {listing : Listing}
variable {diagnostic : Diagnostic} {context middle last final : Context}

theorem outcome_of_scan (h : scan source = .error diagnostic) :
    outcome ((compile source).run context) = .error diagnostic := by
  rw [compile, h]
  rfl

theorem outcome_of_parse (hscan : scan source = .ok tokens)
    (hparse : (parse tokens).run context = .error diagnostic final) :
    outcome ((compile source).run context) = .error diagnostic := by
  have hchecks : (checkTokens tokens).run context = .error diagnostic final :=
    run_bind_of_error hparse
  have hcompiles : (compileTokens tokens).run context = .error diagnostic final :=
    run_bind_of_error hchecks
  rw [compile, hscan]
  exact congrArg outcome hcompiles

theorem outcome_of_check (hscan : scan source = .ok tokens)
    (hparse : (parse tokens).run context = .ok tree middle)
    (hcheck : (check tree).run middle = .error diagnostic final) :
    outcome ((compile source).run context) = .error diagnostic := by
  have hchecks : (checkTokens tokens).run context = .error diagnostic final :=
    (run_bind_of_ok hparse).trans hcheck
  have hcompiles : (compileTokens tokens).run context = .error diagnostic final :=
    run_bind_of_error hchecks
  rw [compile, hscan]
  exact congrArg outcome hcompiles

/-- Once the program is checked, its code decides. -/
theorem outcome_of_generate (hscan : scan source = .ok tokens)
    (hparse : (parse tokens).run context = .ok tree middle)
    (hcheck : (check tree).run middle = .ok checked last) :
    outcome ((compile source).run context) = outcome ((generate checked).run last) := by
  have hchecks : (checkTokens tokens).run context = .ok checked last :=
    (run_bind_of_ok hparse).trans hcheck
  have hcompiles : (compileTokens tokens).run context = (generate checked).run last :=
    run_bind_of_ok hchecks
  rw [compile, hscan]
  exact congrArg outcome hcompiles

end

namespace Step

/-- The input file is compiled as the text that is read from it is, and no file changes. -/
theorem ends_compileFile (options : Options) (files : FileSystem) :
    Ends (compileFile options) files
      (fun result after => after = files ∧ ∃ source listing,
        sourceText files options.input = .ok source ∧
        Compilation.outcome ((compile source).run (.fresh false false)) = .ok listing ∧
        result.1 = listing.render)
      (fun diagnostic after => after = files ∧ options.comesTo files = .error diagnostic) := by
  have hcontext : Context.fresh options.logParser options.logBinding =
      (Context.fresh false false).onLog fun _ => .empty options.logParser options.logBinding := rfl
  unfold compileFile
  rw [hcontext]
  refine ends_bind (ends_clock fun start => ?_)
  refine (silent_explain options _).ends_bind ?_
  refine ends_bind (ends_readSource options.input (fun source hread => ?_) fun _ hread =>
    ⟨rfl, Options.comesTo_of_unread hread⟩)
  refine (silent_explain options _).ends_bind ?_
  refine ends_bind (ends_clock fun opened => ?_)
  refine ends_bind (ends_liftExcept (fun tokens hscan => ?_) fun _ hscan =>
    ⟨rfl, Options.comesTo_of_refused hread (outcome_of_scan hscan)⟩)
  refine ends_bind (ends_clock fun scanned => ?_)
  refine (silent_explain options _).ends_bind ?_
  refine ends_bind (ends_runStage (Compilation.ignoresLog_parse tokens)
    (fun tree middle log hparse => ?_) fun _ _ hparse =>
      ⟨rfl, Options.comesTo_of_refused hread (outcome_of_parse hscan hparse)⟩)
  refine ends_bind (ends_clock fun parsed => ?_)
  refine (silent_explain options _).ends_bind ?_
  refine ends_bind (ends_runStage (Compilation.ignoresLog_check tree)
    (fun checked last log hcheck => ?_) fun _ _ hcheck =>
      ⟨rfl, Options.comesTo_of_refused hread (outcome_of_check hscan hparse hcheck)⟩)
  refine ends_bind (ends_clock fun checkedAt => ?_)
  refine (silent_explain options _).ends_bind ?_
  have hcompile := outcome_of_generate hscan hparse hcheck
  refine ends_bind (ends_runStage (Compilation.ignoresLog_generate checked)
    (fun listing final log hgenerate => ?_) fun _ _ hgenerate =>
      ⟨rfl, Options.comesTo_of_refused hread ?_⟩)
  · have hdone : ∃ source listing', sourceText files options.input = .ok source ∧
        Compilation.outcome ((compile source).run (.fresh false false)) = .ok listing' ∧
        listing.render = listing'.render := by
      refine ⟨source, listing, hread, ?_, rfl⟩
      rw [hcompile, hgenerate]
      rfl
    refine ends_bind (ends_clock fun generated => ?_)
    refine (silent_explain options _).ends_bind ?_
    dsimp only
    split
    · refine (silent_printLine _).ends_bind ((silent_printLine _).ends_bind ?_)
      exact ends_bind (ends_clock fun finish =>
        (silent_explain options _).ends_bind (ends_pure ⟨rfl, hdone⟩))
    · exact ends_bind (ends_clock fun finish =>
        (silent_explain options _).ends_bind (ends_pure ⟨rfl, hdone⟩))
  · rw [hcompile, hgenerate]
    rfl

/-- The listing of the input file is written, or no file changes. -/
theorem ends_compileAndWrite (options : Options) (files : FileSystem) :
    Ends (compileAndWrite options) files
      (fun _ after => ∃ listing, options.comesTo files = .ok (listing, after))
      (fun diagnostic after => after = files ∧ options.comesTo files = .error diagnostic) := by
  unfold compileAndWrite
  refine ends_bind ((ends_compileFile options files).mono ?_)
  rintro ⟨text, statistics⟩ after ⟨rfl, source, listing, hread, hcompile, rfl⟩
  have hcomes := Options.comesTo_of_compiled hread hcompile
  refine ends_bind (ends_writeAssembly options.target listing.render (fun final hwritten => ?_)
    fun diagnostic hwritten => ⟨rfl, ?_⟩)
  · have hdone : ∃ listing, options.comesTo after = .ok (listing, final) := by
      refine ⟨listing, ?_⟩
      rw [hcomes, hwritten]
      rfl
    refine (silent_explain options _).ends_bind ?_
    dsimp only
    split
    · exact (silent_printStatistics statistics).ends_bind
        ((silent_explain options _).ends hdone)
    · exact (silent_explain options _).ends hdone
  · rw [hcomes, hwritten]
    rfl

/-- The library's functions in a row come to the same. -/
theorem ends_pipeline (options : Options) (files : FileSystem) :
    Ends options.pipeline files
      (fun listing after => options.comesTo files = .ok (listing, after))
      (fun diagnostic after => after = files ∧ options.comesTo files = .error diagnostic) := by
  unfold Options.pipeline
  refine ends_bind (ends_readSource options.input (fun source hread => ?_) fun _ hread =>
    ⟨rfl, Options.comesTo_of_unread hread⟩)
  refine ends_bind (ends_liftExcept (fun listing hcompile => ?_) fun _ hcompile =>
    ⟨rfl, Options.comesTo_of_refused hread hcompile⟩)
  have hcomes := Options.comesTo_of_compiled hread hcompile
  refine ends_bind (ends_writeAssembly _ _ (fun after hwritten => ends_pure ?_)
    fun _ hwritten => ⟨rfl, ?_⟩)
  · rw [hcomes, hwritten]
    rfl
  · rw [hcomes, hwritten]
    rfl

end Step

/-! ### Whole runs -/

namespace Options

def ran (options : Options) (host : Recorded) : Nat × Recorded :=
  (run options : StateM Recorded Nat).run host

variable {options : Options} {host : Recorded} {diagnostic : Diagnostic}

/-- A run ends as its work does, with a complaint if that fails. -/
theorem ran_eq (options : Options) (host : Recorded) :
    options.ran host =
      (match (Step.on (compileAndWrite options) host).1 with
        | .ok () => return 0
        | .error diagnostic => do
          Host.complain ("Error: " ++ diagnostic.message)
          return 1 : StateM Recorded Nat) (Step.on (compileAndWrite options) host).2 := rfl

theorem ran_of_ok {listing : Listing} {after : FileSystem}
    (h : options.comesTo host.files = .ok (listing, after)) :
    (options.ran host).1 = 0 ∧ (options.ran host).2.files = after := by
  rcases Step.ends_compileAndWrite options host.files host rfl with
    ⟨done, final, hwork, found, hfound⟩ | ⟨diagnostic, final, -, -, hfailed⟩
  · rw [ran_eq, hwork]
    obtain ⟨rfl, rfl⟩ := Prod.mk.inj (Except.ok.inj (h.symm.trans hfound))
    exact ⟨rfl, rfl⟩
  · cases h.symm.trans hfailed

theorem ran_of_error (h : options.comesTo host.files = .error diagnostic) :
    (options.ran host).1 = 1 ∧ (options.ran host).2.files = host.files ∧
      ∃ before, (options.ran host).2.complaints = before ++ ["Error: " ++ diagnostic.message] := by
  rcases Step.ends_compileAndWrite options host.files host rfl with
    ⟨done, final, -, found, hfound⟩ | ⟨found, final, hwork, hsame, hfailed⟩
  · cases h.symm.trans hfound
  · rw [ran_eq, hwork]
    obtain rfl := Except.error.inj (h.symm.trans hfailed)
    exact ⟨rfl, hsame, final.complaints, rfl⟩

/-- The other options are not read. -/
theorem comesTo_congr {options' : Options} (hinput : options'.input = options.input)
    (houtput : options'.output? = options.output?) (files : FileSystem) :
    options'.comesTo files = options.comesTo files := by
  have htarget : options'.target = options.target := by
    rw [target, target, houtput, hinput]
  rw [comesTo, comesTo, hinput, htarget]

/-- The library's functions in a row succeed if they come to something. -/
theorem on_pipeline (options : Options) (host : Recorded) :
    (∃ listing after, options.pipeline.on host = (.ok listing, after) ∧
      options.comesTo host.files = .ok (listing, after.files)) ∨
    ∃ diagnostic after, options.pipeline.on host = (.error diagnostic, after) ∧
      options.comesTo host.files = .error diagnostic := by
  rcases Step.ends_pipeline options host.files host rfl with
    ⟨listing, after, hrun, hcomes⟩ | ⟨diagnostic, after, hrun, -, hcomes⟩
  · exact .inl ⟨listing, after, hrun, hcomes⟩
  · exact .inr ⟨diagnostic, after, hrun, hcomes⟩

end Options

/-- **The command line agrees with the library.**  With any options and files, a run ends
with status zero exactly if reading the input, compiling it in a fresh context and writing
the listing succeed one after the other.  Then the target holds the listing, and no other
file has changed.  Otherwise the status is one, the last complaint is the message of the
first of the three that fails, and no file has changed.  What is printed and logged on the
way, which the other options decide, makes no difference to that. -/
theorem run_agrees (options : Options) (host : Recorded) :
    ((options.ran host).1 = 0 ↔
      ∃ listing after, options.pipeline.on host = (.ok listing, after)) ∧
    (∀ listing after, options.pipeline.on host = (.ok listing, after) →
      (options.ran host).2.files = after.files ∧
      (options.ran host).2.files.read options.target = .ok listing.render.toUTF8 ∧
      ∃ place, host.files.creationPlace options.target = .ok place ∧
        ∀ other ≠ place, (options.ran host).2.files.entry? other = host.files.entry? other) ∧
    (∀ diagnostic after, options.pipeline.on host = (.error diagnostic, after) →
      (options.ran host).1 = 1 ∧ (options.ran host).2.files = host.files ∧
      ∃ before, (options.ran host).2.complaints = before ++ ["Error: " ++ diagnostic.message]) ∧
    ∀ options' : Options, options'.input = options.input → options'.output? = options.output? →
      (options'.ran host).1 = (options.ran host).1 ∧
      (options'.ran host).2.files = (options.ran host).2.files ∧
      ((options.ran host).1 = 1 → (options'.ran host).2.complaints.getLast? =
        (options.ran host).2.complaints.getLast?) := by
  have hsame (options' : Options) (hinput : options'.input = options.input)
      (houtput : options'.output? = options.output?) :=
    Options.comesTo_congr hinput houtput host.files
  rcases options.on_pipeline host with
    ⟨listing, after, hpipeline, hcomes⟩ | ⟨diagnostic, after, hpipeline, hcomes⟩
  · obtain ⟨hstatus, hfiles⟩ := Options.ran_of_ok hcomes
    obtain ⟨hread, hplace⟩ := Options.exists_of_comesTo hcomes
    rw [hpipeline, hstatus, hfiles]
    refine ⟨⟨fun _ => ⟨listing, after, rfl⟩, fun _ => rfl⟩, ?_, ?_, ?_⟩
    · rintro _ _ ⟨⟩
      exact ⟨rfl, hread, hplace⟩
    · rintro _ _ ⟨⟩
    · intro options' hinput houtput
      obtain ⟨hstatus', hfiles'⟩ := Options.ran_of_ok ((hsame options' hinput houtput).trans hcomes)
      exact ⟨hstatus', hfiles', fun h => absurd h Nat.zero_ne_one⟩
  · obtain ⟨hstatus, hfiles, before, hcomplaints⟩ := Options.ran_of_error hcomes
    rw [hpipeline, hstatus, hfiles, hcomplaints]
    refine ⟨⟨fun h => absurd h Nat.one_ne_zero, ?_⟩, ?_, ?_, ?_⟩
    · rintro ⟨_, _, ⟨⟩⟩
    · rintro _ _ ⟨⟩
    · rintro _ _ ⟨⟩
      exact ⟨rfl, rfl, before, rfl⟩
    · intro options' hinput houtput
      obtain ⟨hstatus', hfiles', before', hcomplaints'⟩ :=
        Options.ran_of_error ((hsame options' hinput houtput).trans hcomes)
      refine ⟨hstatus', hfiles', fun _ => ?_⟩
      rw [hcomplaints', List.getLast?_concat, List.getLast?_concat]

/-- A text that compiles is compiled to its target, and one that does not leaves no file. -/
example :
    let text := "program p; var n: integer; begin n := 1; write(n) end."
    let host (text : String) : Recorded :=
      ⟨⟨[([("in.pas").toList], .file text.toUTF8)]⟩, [], []⟩
    let ran (text : String) := (Options.ofArguments? ["-v", "in.pas", "--log-binding"]).map fun
      options => ((options.ran (host text)).1, ((options.ran (host text)).2.files.read "in.s").isOk)
    ran text = some (0, true) ∧ ran "program p; begin n := 1 end." = some (1, false) := by
  decide +kernel

end MiniPascal.CommandLine
