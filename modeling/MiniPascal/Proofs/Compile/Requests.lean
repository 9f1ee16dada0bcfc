import MiniPascal.Proofs.Check.Again
import MiniPascal.Proofs.Compile.Total
import MiniPascal.Proofs.Code.Units

/-!
# Requests on a tree

A tree that was parsed can be checked and its code can be asked for, in any order, any
number of times, and each time in another context.  The first check decides: if it
succeeds, so do all later requests, and checks leave the tree alone; if it fails, nothing
succeeds any more, and no code was given before it.
-/

namespace MiniPascal

open MiniPascal.Assembly

/-- A request on a tree, in a context: to check it, or to add its code to a listing. -/
inductive Request
  | check (context : Context)
  | generate (listing : Listing) (context : Context)

def Request.leaves (tree : Tree) : Request → Tree
  | check context => (Compilation.checkIn tree context).tree
  | generate _ _ => tree

namespace Tree

def after (tree : Tree) (requests : List Request) : Tree :=
  requests.foldl Request.leaves tree

/-- The result of the first check among requests in a row, if there is one. -/
def firstCheck? (tree : Tree) : List Request → Option (Except Diagnostic Unit)
  | [] => none
  | .check context :: _ => some (Compilation.checkIn tree context).result
  | .generate _ _ :: others => tree.firstCheck? others

end Tree

/-! ### Single requests -/

namespace Compilation

/-- Without a check no code is written and no label is drawn. -/
theorem generateIn_of_unchecked {tree : Tree} (h : tree.checked = false) (listing : Listing)
    (context : Context) :
    generateIn tree listing context =
      { result := .error Code.Fault.unchecked.diagnostic, listing, context } := by
  have hrun : (Code.program tree (context.title?.getD tree.name)).run context.labels =
      { lines := [], counter := context.labels, result := .error .unchecked } := by
    rw [Code.program, if_neg (Bool.eq_false_iff.mp h)]
    rfl
  unfold generateIn
  rw [hrun]
  simp only [List.map_nil, Listing.append, List.append_nil]
  rfl

theorem checkIn_of_checked {tree : Tree} (h : tree.checked = true) (context : Context) :
    (checkIn tree context).result = .ok () ∧ (checkIn tree context).tree = tree := by
  unfold checkIn Tree.check
  rw [if_pos h]
  exact ⟨rfl, rfl⟩

end Compilation

/-- When a tree is asked for its code, whatever the listing and the context, the request
succeeds and lines are added exactly under a condition; otherwise the listing stays, and so
does the context with its counter of labels. -/
def Tree.GivesCodeIff (tree : Tree) (condition : Prop) : Prop :=
  ∀ listing context,
    ((Compilation.generateIn tree listing context).result = .ok () ↔ condition) ∧
    ((∃ lines ≠ [], (Compilation.generateIn tree listing context).listing =
      listing.append lines) ↔ condition) ∧
    (¬condition → (Compilation.generateIn tree listing context).listing = listing ∧
      (Compilation.generateIn tree listing context).context = context)

theorem Tree.givesCodeIff_of_unchecked {tree : Tree} (h : tree.checked = false) {condition : Prop}
    (hcondition : ¬condition) : tree.GivesCodeIff condition := by
  intro listing context
  rw [Compilation.generateIn_of_unchecked h]
  refine ⟨⟨?_, fun h => absurd h hcondition⟩, ⟨?_, fun h => absurd h hcondition⟩,
    fun _ => ⟨rfl, rfl⟩⟩
  · intro hresult
    cases hresult
  · rintro ⟨lines, hne, hlisting⟩
    have hlines : listing.lines = listing.lines ++ lines := congrArg Listing.lines hlisting
    exact absurd (List.self_eq_append_right.mp hlines) hne

/-- A checked program has code, at least the entry that calls it. -/
theorem CheckedProgram.givesCodeIff {outline : Outline} {skeleton : Skeleton} {tree : Tree}
    (program : CheckedProgram outline skeleton tree) {condition : Prop} (hcondition : condition) :
    tree.GivesCodeIff condition := by
  intro listing context
  obtain ⟨lines, counter, done, hemits, -⟩ :=
    Code.succeeds_program program (context.title?.getD tree.name) context.labels
  obtain ⟨labels, hcode⟩ := Code.exists_programCode program hemits
  have hentry : Label.global "main" ∈ shown lines := by
    refine hcode.shown_perm.mem_iff.mpr (List.mem_append_left _ ?_)
    exact List.mem_cons_of_mem _ List.mem_cons_self
  have hne : lines ≠ [] := by
    rintro rfl
    cases hentry
  change (Code.program tree (context.title?.getD tree.name)).run context.labels = _ at hemits
  unfold Compilation.generateIn
  rw [hemits]
  have hadded : lines.map Line.listed ≠ [] := fun h => hne (List.map_eq_nil_iff.mp h)
  exact ⟨⟨fun _ => hcondition, fun _ => rfl⟩, ⟨fun _ => hcondition, fun _ => ⟨_, hadded, rfl⟩⟩,
    fun h => absurd hcondition h⟩

/-! ### Requests in a row -/

namespace Tree

theorem Spent.after {tree : Tree} (spent : tree.Spent) (requests : List Request) :
    (tree.after requests).Spent := by
  induction requests generalizing tree with
  | nil => exact spent
  | cons request others ih =>
      cases request with
      | check context => exact ih (spent.check context.log).2
      | generate listing context => exact ih spent

theorem after_of_checked {tree : Tree} (h : tree.checked = true) (requests : List Request) :
    tree.after requests = tree := by
  induction requests with
  | nil => rfl
  | cons request others ih =>
      cases request with
      | check context =>
          change (Compilation.checkIn tree context).tree.after others = tree
          rw [(Compilation.checkIn_of_checked h context).2]
          exact ih
      | generate listing context => exact ih

/-- The tree of an outline is as it was until the first check, which leaves a checked
program, or a tree that no check succeeds on. -/
theorem after_cases (outline : Outline) (requests : List Request) :
    (Tree.ofOutline outline).firstCheck? requests = none ∧
      (Tree.ofOutline outline).after requests = .ofOutline outline ∨
    (∃ diagnostic, (Tree.ofOutline outline).firstCheck? requests = some (.error diagnostic)) ∧
      ((Tree.ofOutline outline).after requests).Spent ∨
    (Tree.ofOutline outline).firstCheck? requests = some (.ok ()) ∧
      ∃ skeleton, CheckedProgram outline skeleton ((Tree.ofOutline outline).after requests) := by
  induction requests with
  | nil => exact .inl ⟨rfl, rfl⟩
  | cons request others ih =>
      cases request with
      | generate listing context => exact ih
      | check context =>
          refine .inr ?_
          change (∃ diagnostic, some ((Tree.ofOutline outline).check context.log).result = _) ∧
              ((((Tree.ofOutline outline).check context.log).tree).after others).Spent ∨
            some ((Tree.ofOutline outline).check context.log).result = _ ∧ ∃ skeleton,
              CheckedProgram outline skeleton
                ((((Tree.ofOutline outline).check context.log).tree).after others)
          cases hresult : ((Tree.ofOutline outline).check context.log).result with
          | error diagnostic =>
              exact .inl ⟨⟨diagnostic, rfl⟩, (spent_of_check hresult).after others⟩
          | ok done =>
              obtain ⟨skeleton, hskeleton⟩ := Outline.exists_skeleton outline
              have houtcome := (Tree.check_outcome hskeleton context.log).2
              rw [hresult] at houtcome
              rw [after_of_checked houtcome.checked_eq]
              exact .inr ⟨rfl, skeleton, houtcome⟩

end Tree

/-- **The first check decides.**  On a tree that was parsed, after any requests, code is
given exactly if the first check was among them and succeeded.  After a first check that
failed every check fails, and after one that succeeded every check succeeds and leaves the
tree as it is. -/
theorem first_check_decides {tokens : List Located} {context final : Context} {tree : Tree}
    (hparse : (Compilation.parse tokens).run context = .ok tree final)
    (requests : List Request) :
    (tree.after requests).GivesCodeIff (tree.firstCheck? requests = some (.ok ())) ∧
    ((∃ diagnostic, tree.firstCheck? requests = some (.error diagnostic)) → ∀ context,
      ∃ diagnostic, (Compilation.checkIn (tree.after requests) context).result =
        .error diagnostic) ∧
    (tree.firstCheck? requests = some (.ok ()) → ∀ context,
      (Compilation.checkIn (tree.after requests) context).result = .ok () ∧
      (Compilation.checkIn (tree.after requests) context).tree = tree.after requests) := by
  obtain ⟨outline, rfl⟩ : ∃ outline, tree = .ofOutline outline := by
    cases hresult : (Outline.parse tokens).result with
    | error error =>
        rw [Compilation.run_parse_of_error hresult] at hparse
        cases hparse
    | ok outline =>
        rw [Compilation.run_parse_of_ok hresult] at hparse
        cases hparse
        exact ⟨outline, rfl⟩
  rcases Tree.after_cases outline requests with
    ⟨hnone, hafter⟩ | ⟨⟨diagnostic, hfailed⟩, spent⟩ | ⟨hok, skeleton, program⟩
  · have hfirst : (Tree.ofOutline outline).firstCheck? requests ≠ some (.ok ()) := by
      rw [hnone]
      intro h
      cases h
    have hunchecked : ((Tree.ofOutline outline).after requests).checked = false := by
      rw [hafter]
      rfl
    refine ⟨Tree.givesCodeIff_of_unchecked hunchecked hfirst, ?_, fun h => absurd h hfirst⟩
    rintro ⟨diagnostic, hfailed⟩
    cases hnone.symm.trans hfailed
  · have hfirst : (Tree.ofOutline outline).firstCheck? requests ≠ some (.ok ()) := by
      rw [hfailed]
      intro h
      cases h
    exact ⟨Tree.givesCodeIff_of_unchecked spent.checked_eq hfirst,
      fun _ context => (spent.check context.log).1, fun h => absurd h hfirst⟩
  · refine ⟨program.givesCodeIff hok, ?_, fun _ =>
      Compilation.checkIn_of_checked program.checked_eq⟩
    rintro ⟨diagnostic, hfailed⟩
    cases hok.symm.trans hfailed

/-- Of a program that is accepted, a second check changes nothing and the code is given;
of one that is refused, a second check fails as well and the code is not given. -/
theorem first_check_decides_retried :
    (∃ tokens tree final,
      (Compilation.parse tokens).run (.fresh false false) = .ok tree final ∧
      tree.firstCheck? [.check (.fresh false false)] = some (.ok ()) ∧
      (Compilation.checkIn (tree.after [.check (.fresh false false)]) final).tree =
        tree.after [.check (.fresh false false)] ∧
      (Compilation.generateIn (tree.after [.check (.fresh false false)]) .empty final).result =
        .ok ()) ∧
    ∃ tokens tree final diagnostic,
      (Compilation.parse tokens).run (.fresh false false) = .ok tree final ∧
      tree.firstCheck? [.check (.fresh false false)] = some (.error diagnostic) ∧
      (∃ found, (Compilation.checkIn (tree.after [.check (.fresh false false)]) final).result =
        .error found) ∧
      (Compilation.generateIn (tree.after [.check (.fresh false false)]) .empty final).listing =
        .empty := by
  constructor
  · have hchecks : Compilation.parsesWith (fun tree => Compilation.passes (fun _ => true)
        (tree.check (.empty false false)).result)
        "program p; var n: integer; begin n := 1; write(n) end." = true := by
      decide +kernel
    obtain ⟨tokens, tree, final, hparse, htest⟩ := Compilation.exists_of_parsesWith hchecks
    obtain ⟨done, hresult, -⟩ := Compilation.exists_of_passes htest
    have hfirst : tree.firstCheck? [.check (.fresh false false)] = some (.ok ()) :=
      congrArg some hresult
    obtain ⟨hgiven, -, hkept⟩ := first_check_decides hparse [.check (.fresh false false)]
    exact ⟨tokens, tree, final, hparse, hfirst, (hkept hfirst final).2,
      (hgiven .empty final).1.mpr hfirst⟩
  · have hrefused : Compilation.parsesWith (fun tree => !Compilation.passes (fun _ => true)
        (tree.check (.empty false false)).result)
        "program p; begin write(n); n := 1 end." = true := by
      decide +kernel
    obtain ⟨tokens, tree, final, hparse, htest⟩ := Compilation.exists_of_parsesWith hrefused
    obtain ⟨hgiven, hfails, -⟩ := first_check_decides hparse [.check (.fresh false false)]
    cases hresult : (tree.check (.empty false false)).result with
    | ok done =>
        rw [hresult] at htest
        cases htest
    | error diagnostic =>
        have hfirst : tree.firstCheck? [.check (.fresh false false)] = some (.error diagnostic) :=
          congrArg some hresult
        have hnot : tree.firstCheck? [.check (.fresh false false)] ≠ some (.ok ()) := by
          rw [hfirst]
          intro h
          cases h
        exact ⟨tokens, tree, final, diagnostic, hparse, hfirst, hfails ⟨diagnostic, hfirst⟩ final,
          ((hgiven .empty final).2.2 hnot).1⟩

end MiniPascal
