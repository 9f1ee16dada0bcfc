import MiniPascal.Compile
import MiniPascal.Proofs.Code.Emission
import MiniPascal.Proofs.Check.Program

/-!
# Stages of a compilation

Tokens that parse and check give a checked program; tokens that do not are
refused with a diagnostic for the author of the program.
-/

namespace MiniPascal

namespace Compilation

section Sequences

variable {α β : Type} {first : Compilation α} {next : α → Compilation β}
variable {context middle : Context}

theorem run_bind_of_ok {value : α} (h : first.run context = .ok value middle) :
    (first >>= next).run context = (next value).run middle := by
  change EStateM.bind first next context = _
  change first context = _ at h
  unfold EStateM.bind
  rw [h]
  rfl

theorem run_bind_of_error {diagnostic : Diagnostic}
    (h : first.run context = .error diagnostic middle) :
    (first >>= next).run context = .error diagnostic middle := by
  change EStateM.bind first next context = _
  change first context = _ at h
  unfold EStateM.bind
  rw [h]

end Sequences

/-- What the parser leaves in a context. -/
def parsedContext (tokens : List Located) (context : Context) : Context :=
  { context with
    title? := (Outline.parse tokens).title? <|> context.title?
    log := context.log.recordAll (Outline.parse tokens).trace }

theorem run_parse_of_ok {tokens : List Located} {outline : Outline}
    (h : (Outline.parse tokens).result = .ok outline) (context : Context) :
    (parse tokens).run context = .ok (.ofOutline outline) (parsedContext tokens context) := by
  change parse tokens context = _
  unfold parse
  simp only [h]
  rfl

theorem run_parse_of_error {tokens : List Located} {error : Outline.SyntaxError}
    (h : (Outline.parse tokens).result = .error error) (context : Context) :
    (parse tokens).run context = .error error.diagnostic (parsedContext tokens context) := by
  change parse tokens context = _
  unfold parse
  simp only [h]
  rfl

theorem run_check_of_ok {tree : Tree} {context : Context}
    (h : (tree.check context.log).result = .ok ()) :
    (check tree).run context = .ok (tree.check context.log).tree
      { context with log := (tree.check context.log).log } := by
  change check tree context = _
  unfold check checkIn
  simp only [h]

theorem run_check_of_error {tree : Tree} {context : Context} {diagnostic : Diagnostic}
    (h : (tree.check context.log).result = .error diagnostic) :
    (check tree).run context = .error diagnostic
      { context with log := (tree.check context.log).log } := by
  change check tree context = _
  unfold check checkIn
  simp only [h]

/-- Tokens are accepted if they parse and the tree of their outline checks. -/
theorem checkTokens_eq_ok_iff {tokens : List Located} {context : Context} {tree : Tree} :
    (∃ final, (checkTokens tokens).run context = .ok tree final) ↔
      ∃ outline, (Outline.parse tokens).result = .ok outline ∧
        ((Tree.ofOutline outline).check
          (context.log.recordAll (Outline.parse tokens).trace)).result = .ok () ∧
        ((Tree.ofOutline outline).check
          (context.log.recordAll (Outline.parse tokens).trace)).tree = tree := by
  change (∃ final, EStateM.bind (parse tokens) check context = .ok tree final) ↔ _
  unfold EStateM.bind parse
  cases hparse : (Outline.parse tokens).result with
  | error error => simp only [hparse, reduceCtorEq, exists_false, false_and]
  | ok outline =>
      unfold check checkIn
      simp only [hparse, Except.ok.injEq, exists_eq_left']
      cases hresult : ((Tree.ofOutline outline).check
          (context.log.recordAll (Outline.parse tokens).trace)).result with
      | error diagnostic => simp only [reduceCtorEq, exists_false, false_and]
      | ok done =>
          simp only [EStateM.Result.ok.injEq, exists_and_left, exists_eq', and_true, true_and]

/-- Tokens that parse and check have an outline, and a tree that is checked. -/
theorem exists_checkedProgram {tokens : List Located} {context final : Context} {tree : Tree}
    (h : (checkTokens tokens).run context = .ok tree final) :
    ∃ outline skeleton, (Outline.parse tokens).result = .ok outline ∧
      Check.Underway outline tree ∧ CheckedProgram outline skeleton tree := by
  obtain ⟨outline, hparse, hresult, rfl⟩ := checkTokens_eq_ok_iff.mp ⟨final, h⟩
  obtain ⟨skeleton, hskeleton⟩ := Outline.exists_skeleton outline
  have houtcome := Tree.check_outcome hskeleton
    (context.log.recordAll (Outline.parse tokens).trace)
  rw [hresult] at houtcome
  exact ⟨outline, skeleton, hparse, houtcome⟩

/-- The stages before the code draw no labels. -/
theorem labels_of_checkTokens {tokens : List Located} {context middle : Context} {tree : Tree}
    (h : (checkTokens tokens).run context = .ok tree middle) : middle.labels = context.labels := by
  change EStateM.bind (parse tokens) check context = _ at h
  unfold EStateM.bind parse at h
  cases hparse : (Outline.parse tokens).result with
  | error error =>
      simp only [hparse] at h
      cases h
  | ok outline =>
      unfold check checkIn at h
      simp only [hparse] at h
      split at h
      · cases h
        rfl
      · cases h

/-- A listing that is generated has the lines that were written for the tree. -/
theorem exists_emits_of_generate {tree : Tree} {context final : Context}
    {listing : Assembly.Listing} (h : (generate tree).run context = .ok listing final) :
    ∃ lines, (Code.program tree (context.title?.getD tree.name)).Emits context.labels lines
      final.labels () ∧ listing = ⟨lines.map Assembly.Line.listed⟩ := by
  change generate tree context = _ at h
  unfold generate generateIn at h
  cases hemission : (Code.program tree (context.title?.getD tree.name)).run context.labels with
  | mk lines counter result =>
      cases result with
      | error fault =>
          simp only [hemission] at h
          cases h
      | ok done =>
          simp only [hemission] at h
          cases h
          exact ⟨lines, hemission, rfl⟩

/-! ### Outcomes that are computed -/

section Outcomes

variable {ε α : Type}

/-- The outcome is a value that passes the test. -/
def passes (test : α → Bool) : Except ε α → Bool
  | .ok value => test value
  | .error _ => false

theorem exists_of_passes {test : α → Bool} {outcome : Except ε α} (h : passes test outcome = true) :
    ∃ value, outcome = .ok value ∧ test value = true := by
  cases outcome with
  | ok value => exact ⟨value, rfl, h⟩
  | error error => cases h

/-- The outcome is a value that passes the test, with the context that is left. -/
def endsWith (test : α → Context → Bool) : EStateM.Result Diagnostic Context α → Bool
  | .ok value final => test value final
  | .error .. => false

theorem exists_of_endsWith {test : α → Context → Bool}
    {outcome : EStateM.Result Diagnostic Context α} (h : endsWith test outcome = true) :
    ∃ value final, outcome = .ok value final ∧ test value final = true := by
  cases outcome with
  | ok value final => exact ⟨value, final, rfl, h⟩
  | error diagnostic final => cases h

theorem exists_error_of_endsWith {outcome : EStateM.Result Diagnostic Context α}
    (h : endsWith (fun _ _ => true) outcome = false) :
    ∃ diagnostic final, outcome = .error diagnostic final := by
  cases outcome with
  | ok value final => cases h
  | error diagnostic final => exact ⟨diagnostic, final, rfl⟩

/-- A text is scanned, and its tokens pass the check with a tree that passes the test. -/
def checksWith (test : Tree → Bool) (source : String) : Bool :=
  passes (fun tokens => endsWith (fun tree _ => test tree)
    ((checkTokens tokens).run (.fresh false false))) (scan source)

theorem exists_of_checksWith {test : Tree → Bool} {source : String}
    (h : checksWith test source = true) :
    ∃ tokens tree final, scan source = .ok tokens ∧
      (checkTokens tokens).run (.fresh false false) = .ok tree final ∧ test tree = true := by
  obtain ⟨tokens, hscan, htokens⟩ := exists_of_passes h
  obtain ⟨tree, final, hcheck, htest⟩ := exists_of_endsWith htokens
  exact ⟨tokens, tree, final, hscan, hcheck, htest⟩

/-- A text is scanned, and its tokens are parsed to a tree that passes the test. -/
def parsesWith (test : Tree → Bool) (source : String) : Bool :=
  passes (fun tokens => endsWith (fun tree _ => test tree)
    ((parse tokens).run (.fresh false false))) (scan source)

theorem exists_of_parsesWith {test : Tree → Bool} {source : String}
    (h : parsesWith test source = true) :
    ∃ tokens tree final, (parse tokens).run (.fresh false false) = .ok tree final ∧
      test tree = true := by
  obtain ⟨tokens, -, htokens⟩ := exists_of_passes h
  obtain ⟨tree, final, hparse, htest⟩ := exists_of_endsWith htokens
  exact ⟨tokens, tree, final, hparse, htest⟩

end Outcomes

end Compilation

/-- A text that compiles is scanned, checked, and its code generated. -/
theorem exists_stages_of_compile {source : String} {context final : Context}
    {listing : Assembly.Listing} (h : (compile source).run context = .ok listing final) :
    ∃ tokens tree middle, Compilation.scan source = .ok tokens ∧
      (Compilation.checkTokens tokens).run context = .ok tree middle ∧
      (Compilation.generate tree).run middle = .ok listing final := by
  unfold compile at h
  split at h
  · next tokens hscan =>
      change EStateM.bind (Compilation.checkTokens tokens) Compilation.generate context = _ at h
      unfold EStateM.bind at h
      split at h
      · next tree middle htokens => exact ⟨tokens, tree, middle, hscan, htokens, h⟩
      · cases h
  · cases h

end MiniPascal
