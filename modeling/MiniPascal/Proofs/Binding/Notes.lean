import MiniPascal.Proofs.Binding.Bound

/-!
# Notes of bindings

With its switch on, a log gets one line for each use that is bound: the name and the line of
the use, and the place of its declaration.  These lines can be read off the piece of the
program that a traversal gives back.
-/

namespace MiniPascal

/-- The line of a log on a name that was declared at some place. -/
def NameRef.note (ref : NameRef) (place : String) : String :=
  "Binding on line " ++ toString ref.line ++ ": " ++ ref.name ++ " was declared " ++ place

/-- The place of a declaration, in the library or in the text. -/
def Decl.place (inLibrary : Bool) (decl : Decl) : String :=
  if inLibrary then "in the library" else "on line " ++ toString decl.line

/-- The line of a log on a use that carries a declaration, given which declarations are in
the library. -/
def Tree.noteBy (tree : Tree) (inLibrary : DeclId → Decl → Bool) (use : Use) : Option String :=
  use.2.decl?.bind fun id =>
    tree.decls[id]?.map fun decl => use.2.note (decl.place (inLibrary id decl))

/-- Whether a declaration is in the table of the library's block. -/
def Tree.inLibrary (tree : Tree) (id : DeclId) : Bool :=
  (tree.tableAt libraryBlock).any (·.2 == id)

/-- The line of a log on a use that carries a declaration. -/
def Tree.note? (tree : Tree) : Use → Option String :=
  tree.noteBy fun id _ => tree.inLibrary id

/-- Whether a declaration stands on no line of a text. -/
def Decl.unlined (_ : DeclId) (decl : Decl) : Bool :=
  decl.line == libraryLine

/-- When the declarations on no line are those in the library, notes tell them apart alike. -/
theorem Tree.noteBy_unlined_eq {tree : Tree}
    (h : ∀ id decl, tree.decls[id]? = some decl → Decl.unlined id decl = tree.inLibrary id) :
    tree.noteBy Decl.unlined = tree.note? := by
  funext use
  unfold note? noteBy
  cases use.2.decl? with
  | none => rfl
  | some id =>
      rw [Option.bind_some, Option.bind_some]
      cases hdecl : tree.decls[id]? with
      | none => rfl
      | some decl => rw [Option.map_some, Option.map_some, h id decl hdecl]

/-- A declaration is noted by its place in the text, which is no annotation. -/
theorem Tree.noteBy_unlined_of_erased_eq {tree other : Tree} (h : other.erased = tree.erased) :
    other.noteBy Decl.unlined = tree.noteBy Decl.unlined := by
  funext use
  have hplaces : ∀ id, (other.decls[id]?.map fun decl : Decl =>
      use.2.note (decl.place (Decl.unlined id decl))) =
        tree.decls[id]?.map fun decl : Decl => use.2.note (decl.place (Decl.unlined id decl)) := by
    intro id
    have hkeeps : ∀ found : Option Decl,
        (found.map Decl.erased).map (fun decl => use.2.note (decl.place (Decl.unlined id decl))) =
          found.map fun decl => use.2.note (decl.place (Decl.unlined id decl)) := by
      rintro (_ | decl) <;> rfl
    rw [← hkeeps, decl_of_erased_eq h, hkeeps]
  exact congrArg (Option.bind use.2.decl?) (funext hplaces)

namespace Log

/-- A log with some more lines. -/
def append (lines : List String) (log : Log) : Log :=
  { log with lines := log.lines ++ lines.toArray }

@[simp]
theorem append_nil (log : Log) : log.append [] = log := by
  simp [append]

@[simp]
theorem append_append (lines lines' : List String) (log : Log) :
    (log.append lines).append lines' = log.append (lines ++ lines') := by
  simp [append]

@[simp]
theorem binding_append (lines : List String) (log : Log) :
    (log.append lines).binding = log.binding := rfl

theorem noteBinding_eq {log : Log} (hswitch : log.binding = true) (ref : NameRef) (decl : Decl)
    (id : DeclId) :
    log.noteBinding ref.name ref.line decl.line =
      log.append [ref.note (decl.place (Decl.unlined id decl))] := by
  have hplace : (if decl.line = libraryLine then "in the library"
      else "on line " ++ toString decl.line) = decl.place (Decl.unlined id decl) := by
    unfold Decl.place Decl.unlined
    by_cases hline : decl.line = libraryLine
    · rw [if_pos hline, if_pos (beq_iff_eq.mpr hline)]
    · rw [if_neg hline, if_neg (mt beq_iff_eq.mp hline)]
  have hpush : log.lines ++ #[ref.note (decl.place (Decl.unlined id decl))] =
      log.lines.push (ref.note (decl.place (Decl.unlined id decl))) := Array.push_eq_append.symm
  rw [noteBinding, if_pos hswitch, hplace, append, hpush]
  rfl

end Log

/-! ### What a traversal notes -/

namespace Binding

variable {tree : Tree} {block : BlockId} {log : Log}

/-- A use that is bound adds its line. -/
theorem exists_note_of_visit {use : NameUse} {ref : NameRef} (hswitch : log.binding = true)
    (h : ((visit tree block use ref).run { log, failure? := none }).2.failure? = none) :
    ∃ line, ((visit tree block use ref).run { log, failure? := none }).2.log = log.append [line] ∧
      tree.noteBy Decl.unlined (use, ((visit tree block use ref).run { log, failure? := none }).1) =
        some line := by
  simp only [visit, StateT.run] at h ⊢
  cases hname : tree.lookup block ref.name with
  | none =>
      rw [hname] at h
      cases h
  | some id =>
      cases hdecl : tree.decls[id]? with
      | none =>
          simp only [hname, hdecl] at h
          cases h
      | some decl =>
          simp only [hdecl]
          refine ⟨_, Log.noteBinding_eq hswitch ref decl id, ?_⟩
          rw [Tree.noteBy, Option.bind_some, hdecl, Option.map_some]
          rfl

/-- Uses that are visited without a failure add their lines, in order. -/
theorem exists_notes_of_visitUses {uses : List Use} (hswitch : log.binding = true)
    (h : ((visitUses (visit tree block) uses).run { log, failure? := none }).2.failure? = none) :
    ∃ lines, ((visitUses (visit tree block) uses).run { log, failure? := none }).2.log =
        log.append lines ∧
      ((visitUses (visit tree block) uses).run { log, failure? := none }).1.map
        (tree.noteBy Decl.unlined) = lines.map some := by
  induction uses generalizing log with
  | nil => exact ⟨[], (Log.append_nil log).symm, rfl⟩
  | cons head others ih =>
      obtain ⟨use, ref⟩ := head
      obtain ⟨ref', middle, others', final, hvisit, hothers, hcons⟩ := exists_of_visitUses_cons h
      have hfirst := @exists_note_of_visit tree block log use ref hswitch (by rw [hvisit])
      rw [hvisit] at hfirst
      obtain ⟨line, rfl, hnote⟩ := hfirst
      have hrest := @ih (log.append [line]) hswitch (by rw [hothers])
      rw [hothers] at hrest
      obtain ⟨lines, rfl, hnotes⟩ := hrest
      refine ⟨line :: lines, ?_, ?_⟩
      · rw [hcons]
        exact Log.append_append [line] lines log
      · rw [hcons, List.map_cons, hnote, hnotes]
        rfl

/-- A traversal that ends without a failure adds the lines on the uses in what it gives
back. -/
theorem exists_notes_of_visited {α : Type} {uses : α → List Use} {erased : α → α} {before : α}
    {result : α × Binding} (hswitch : log.binding = true)
    (h : Visited (visit tree block) uses erased before { log, failure? := none } result)
    (hfailure : result.2.failure? = none) :
    ∃ lines, result.2.log = log.append lines ∧
      (uses result.1).map (tree.noteBy Decl.unlined) = lines.map some := by
  have hnone : ((visitUses (visit tree block) (uses before)).run
      { log, failure? := none }).2.failure? = none := by
    rw [h.visits]
    exact hfailure
  have hnotes := exists_notes_of_visitUses hswitch hnone
  rw [h.visits] at hnotes
  exact hnotes

end Binding

end MiniPascal
