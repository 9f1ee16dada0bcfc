import MiniPascal.Proofs.Assembly.Reference
import MiniPascal.Proofs.Code.Units
import MiniPascal.Proofs.Compile.Stages

/-!
# Linked listings

In the listing of a compiled program every label is defined once, with a number of its
own, and every reference leads to a label of the listing or, for calls alone, to a
run-time function.  Branch targets and data are referred to once.  The code of each
routine comes once, after that of the routines inside it, and the program's code last.
-/

namespace MiniPascal

open MiniPascal.Assembly
open MiniPascal.Code

namespace Assembly

/-- The code of one unit of a listing: it begins at the unit's label, defines only local
labels besides, and ends by returning. -/
structure Listing.IsUnit (label : String) (code : List ListingLine) : Prop where
  begins : code.head?.bind ListingLine.label? = some label
  inside : ∀ other ∈ code.tail.filterMap ListingLine.label?, isLocalText other = true
  ends : code.getLast?.bind ListingLine.instruction? = some ("ret", "")

/-- The written label of a routine bears its class, its name and a number. -/
def IsRoutineLabel (tree : Tree) (id : DeclId) (label : String) : Prop :=
  ∃ decl number, tree.decls[id]? = some decl ∧
    label = (Label.unit (labelStem decl.kind) decl.name number).text

/-- The units of a listing are the entry, the routines of a program, each after those
inside it, and the program itself. -/
structure Listing.Ordered (listing : Listing) (tree : Tree) (program : String) (order : List DeclId)
    (label : DeclId → String) : Prop where
  nodup : order.Nodup
  mem_iff : ∀ id, id ∈ order ↔ (tree.bodyOf? id).isSome = true
  inside_first : order.Pairwise fun first later => ¬tree.LiesIn later first
  labels : ∀ id ∈ order, IsRoutineLabel tree id (label id)
  segments : ∃ entry codes, listing.lines = entry ++ codes.flatten ∧
    entry.filterMap ListingLine.label? = ["_main", "main"] ∧
    List.Forall₂ Listing.IsUnit (order.map label ++ [program]) codes

def runtimeNames : List String :=
  ["write_char", "write_int", "write_string"]

/-- The labels of a listing are all different, with the numbers between two counters,
and its references lead to them. -/
structure Listing.Linked (listing : Listing) (tree : Tree) (title : String)
    (counter final : Nat) : Prop where
  counter_le : counter ≤ final
  unnumbered : listing.labels.filter (fun label => (trailingNumber? label).isNone) =
    ["_main", "main"]
  numbers : (listing.labels.filterMap trailingNumber?).Perm
    (List.range' (counter + 1) (final - counter))
  nodup : listing.labels.Nodup
  aims_defined : ∀ label ∈ listing.aims, label ∈ listing.labels
  callees_defined : ∀ label ∈ listing.callees, label ∈ listing.labels ∨ label ∈ runtimeNames
  aimed_once : ∀ label ∈ listing.labels, isLocalText label = true →
    listing.aims.count label = 1 ∧ label ∉ listing.callees
  ordered : ∃ order label,
    listing.Ordered tree (Label.unit Label.programStem title (counter + 1)).text order label

end Assembly

namespace Code

variable {tree : Tree} {order : List DeclId} {name : String} {counter final : Nat}
variable {lines : List Line} {labels : RoutineLabels}

/-- The code of a unit is that of one when it is written. -/
theorem IsUnit.listed {label : Label} {code : List Line} (h : IsUnit label code) :
    Listing.IsUnit label.text (code.map Line.listed) where
  begins := by
    obtain ⟨front, comment, rfl⟩ := h.ends
    have hbegins := h.begins
    cases front with
    | nil => cases hbegins
    | cons first front =>
        change first.label? = some label at hbegins
        change first.listed.label? = some label.text
        rw [Line.label?_listed, hbegins]
        rfl
  inside := by
    rw [← List.map_tail, filterMap_label?_listed]
    intro other hother
    obtain ⟨found, hfound, rfl⟩ := List.mem_map.mp hother
    have hlocal := h.inside found hfound
    cases found with
    | numbered number => exact isLocalText_numbered number
    | unit | global => cases hlocal
  ends := by
    obtain ⟨front, comment, rfl⟩ := h.ends
    rw [List.map_append, List.map_singleton, List.getLast?_concat]
    rfl

namespace ProgramCode

/-- What a program's code shows: the names of the entry, labels of units, local labels. -/
theorem shown_cases (h : ProgramCode tree order name counter lines final labels) {label : Label}
    (hlabel : label ∈ shown lines) :
    label ∈ [Label.global "_main", Label.global "main"] ∨
      (∃ stem ∈ unitStems, ∃ source number, label = .unit stem source number) ∨
      label.isLocal = true := by
  rcases List.mem_append.mp (h.shown_perm.mem_iff.mp hlabel) with hentry | hdrawn
  · exact .inl hentry
  rcases List.mem_cons.mp hdrawn with rfl | hdrawn
  · exact .inr (.inl ⟨_, by decide, _, _, rfl⟩)
  rcases List.mem_append.mp hdrawn with hroutine | hlocal
  · obtain ⟨entry, hentry, rfl⟩ := List.mem_map.mp hroutine
    obtain ⟨decl, number, -, hunit⟩ := h.draws.unit entry hentry
    exact .inr (.inl ⟨_, labelStem_mem decl.kind, _, _, hunit⟩)
  · exact .inr (.inr (List.mem_filter.mp hlocal).2)

theorem isLocalText_iff (h : ProgramCode tree order name counter lines final labels)
    {label : Label} (hlabel : label ∈ shown lines) :
    isLocalText label.text = label.isLocal := by
  rcases h.shown_cases hlabel with hentry | ⟨stem, hstem, source, number, rfl⟩ | hlocal
  · have hnames : ∀ label ∈ [Label.global "_main", Label.global "main"],
        isLocalText label.text = label.isLocal := by
      decide
    exact hnames label hentry
  · exact isLocalText_unit hstem source number
  · cases label with
    | numbered number => exact isLocalText_numbered number
    | unit | global => cases hlocal

/-- The written labels are the names of the entry and those that were drawn. -/
theorem texts_perm (h : ProgramCode tree order name counter lines final labels) :
    ((shown lines).map Label.text).Perm (["_main", "main"] ++
      (Label.unit Label.programStem name (counter + 1) ::
        (labels.map Prod.snd ++ (shown lines).filter (·.isLocal))).map Label.text) := by
  have hperm := h.shown_perm.map Label.text
  rw [List.map_append] at hperm
  exact hperm

theorem isLocal_of_mem_aimed (h : ProgramCode tree order name counter lines final labels) :
    ∀ label ∈ aimed lines, label.isLocal = true := fun _ hlabel =>
  (List.mem_filter.mp (h.aimed_perm.mem_iff.mp hlabel)).2

/-- What is called is shown, or it is a run-time function. -/
theorem called_cases (h : ProgramCode tree order name counter lines final labels) {label : Label}
    (hlabel : label ∈ called lines) :
    (label ∈ shown lines ∧ label.isLocal = false) ∨ label ∈ runtimeFunctions := by
  rcases h.called_known label hlabel with rfl | hroutine | hruntime
  · exact .inl ⟨h.shown_perm.mem_iff.mpr (List.mem_append_right _ List.mem_cons_self), rfl⟩
  · obtain ⟨entry, hentry, rfl⟩ := List.mem_map.mp hroutine
    obtain ⟨decl, number, -, hunit⟩ := h.draws.unit entry hentry
    refine .inl ⟨h.shown_perm.mem_iff.mpr ?_, congrArg Label.isLocal hunit⟩
    exact List.mem_append_right _ (List.mem_cons_of_mem _ (List.mem_append_left _
      (List.mem_map_of_mem hentry)))
  · exact .inr hruntime

theorem trailingNumber?_entry : ∀ text ∈ ["_main", "main"], trailingNumber? text = none := by
  decide

/-- Only the names of the entry have no number. -/
theorem unnumbered (h : ProgramCode tree order name counter lines final labels) :
    ((shown lines).map Label.text).filter (fun label => (trailingNumber? label).isNone) =
      ["_main", "main"] := by
  obtain ⟨codes, hlines, -⟩ := h.segments
  have hshown : shown lines = [.global "_main", .global "main"] ++ shown codes.flatten := by
    rw [hlines, shown_append]
    rfl
  have hperm := h.shown_perm
  rw [hshown, List.perm_append_left_iff] at hperm
  have hnone : ((shown codes.flatten).map Label.text).filter
      (fun label => (trailingNumber? label).isNone) = [] := by
    apply List.filter_eq_nil_iff.mpr
    intro text htext
    obtain ⟨label, hlabel, rfl⟩ := List.mem_map.mp htext
    have hdrawn := hperm.mem_iff.mp hlabel
    rw [← hshown] at hdrawn
    obtain ⟨number, hnumber⟩ := h.drawn.exists_number hdrawn
    simp [Label.trailingNumber?_text hnumber]
  rw [hshown, List.map_append, List.filter_append, hnone, List.append_nil]
  exact List.filter_eq_self.mpr fun text htext => by rw [trailingNumber?_entry text htext]; rfl

/-- A local label is referred to once. -/
theorem count_aimed (h : ProgramCode tree order name counter lines final labels) {label : Label}
    (hlabel : label ∈ shown lines) (hlocal : label.isLocal = true) :
    ((aimed lines).map Label.text).count label.text = 1 := by
  have hnodup : (((shown lines).filter (·.isLocal)).map Label.text).Nodup := by
    apply List.Sublist.nodup _ h.drawn.nodup_text
    apply List.Sublist.map
    exact (List.sublist_append_right _ _).trans (List.sublist_cons_self _ _)
  rw [(h.aimed_perm.map Label.text).count_eq]
  exact List.count_eq_one_of_mem hnodup
    (List.mem_map_of_mem (List.mem_filter.mpr ⟨hlabel, hlocal⟩))

/-- The numbers of the labels are those that were drawn. -/
theorem numbers_perm (h : ProgramCode tree order name counter lines final labels) :
    (((shown lines).map Label.text).filterMap trailingNumber?).Perm
      (List.range' (counter + 1) (final - counter)) := by
  have hentry : ["_main", "main"].filterMap trailingNumber? = [] :=
    List.filterMap_eq_nil_iff.mpr trailingNumber?_entry
  have hperm := h.texts_perm.filterMap trailingNumber?
  rw [List.filterMap_append, hentry, List.nil_append] at hperm
  exact hperm.trans h.drawn.trailing_numbers

/-- No label is shown twice. -/
theorem nodup_texts (h : ProgramCode tree order name counter lines final labels) :
    ((shown lines).map Label.text).Nodup := by
  rw [h.texts_perm.nodup_iff, List.nodup_append']
  refine ⟨by decide, h.drawn.nodup_text, ?_⟩
  intro text htext hdrawn
  obtain ⟨label, hlabel, rfl⟩ := List.mem_map.mp hdrawn
  obtain ⟨number, hnumber⟩ := h.drawn.exists_number hlabel
  cases (trailingNumber?_entry _ htext).symm.trans (Label.trailingNumber?_text hnumber)

/-- No local label is called. -/
theorem isLocalText_of_mem_called (h : ProgramCode tree order name counter lines final labels) :
    ∀ label ∈ called lines, isLocalText label.text = false := by
  intro label hlabel
  rcases h.called_cases hlabel with ⟨hshown, hunit⟩ | hruntime
  · rw [h.isLocalText_iff hshown, hunit]
  · have hnames : ∀ label ∈ runtimeFunctions, isLocalText label.text = false := by
      decide
    exact hnames label hruntime

/-- The units come in the order of the routines, the program's last. -/
theorem ordered (h : ProgramCode tree order name counter lines final labels)
    (hnodup : order.Nodup) (hmem : ∀ id, id ∈ order ↔ (tree.bodyOf? id).isSome = true)
    (hinside : order.Pairwise fun first later => ¬tree.LiesIn later first) :
    Listing.Ordered ⟨lines.map Line.listed⟩ tree
      (Label.unit Label.programStem name (counter + 1)).text order
      (fun id => (labels.labelOf id).text) where
  nodup := hnodup
  mem_iff := hmem
  inside_first := hinside
  labels id hid := by
    obtain ⟨decl, number, hdecl, hunit⟩ := h.draws.labelOf_unit hnodup hid
    exact ⟨decl, number, hdecl, congrArg Label.text hunit⟩
  segments := by
    obtain ⟨codes, hlines, hunits⟩ := h.segments
    refine ⟨(entryLines (.unit Label.programStem name (counter + 1))).map Line.listed,
      codes.map (List.map Line.listed), ?_, rfl, ?_⟩
    · rw [hlines, List.map_append, List.map_flatten]
    · have htexts : order.map (fun id => (labels.labelOf id).text) ++
          [(Label.unit Label.programStem name (counter + 1)).text] =
            (order.map labels.labelOf ++
              [Label.unit Label.programStem name (counter + 1)]).map Label.text := by
        rw [List.map_append, List.map_map]
        rfl
      rw [htexts, List.forall₂_map_left_iff, List.forall₂_map_right_iff]
      exact hunits.imp fun _ _ => IsUnit.listed

/-- The listing of a program's code is linked. -/
theorem linked (h : ProgramCode tree order name counter lines final labels)
    (hnodup : order.Nodup) (hmem : ∀ id, id ∈ order ↔ (tree.bodyOf? id).isSome = true)
    (hinside : order.Pairwise fun first later => ¬tree.LiesIn later first) :
    Listing.Linked ⟨lines.map Line.listed⟩ tree name counter final := by
  have hlabels : (Listing.mk (lines.map Line.listed)).labels = (shown lines).map Label.text :=
    filterMap_label?_listed lines
  have haims : (Listing.mk (lines.map Line.listed)).aims = (aimed lines).map Label.text :=
    filterMap_aim?_listed h.isLocal_of_mem_aimed
  have hcallees : (Listing.mk (lines.map Line.listed)).callees = (called lines).map Label.text :=
    filterMap_callee?_listed lines
  constructor
  case counter_le => exact h.drawn.counter_le
  case unnumbered => exact hlabels ▸ h.unnumbered
  case numbers => exact hlabels ▸ h.numbers_perm
  case nodup => exact hlabels ▸ h.nodup_texts
  case aims_defined =>
    rw [haims, hlabels]
    intro text htext
    obtain ⟨label, hlabel, rfl⟩ := List.mem_map.mp htext
    exact List.mem_map_of_mem (List.mem_filter.mp (h.aimed_perm.mem_iff.mp hlabel)).1
  case callees_defined =>
    rw [hcallees, hlabels]
    intro text htext
    obtain ⟨label, hlabel, rfl⟩ := List.mem_map.mp htext
    rcases h.called_cases hlabel with ⟨hshown, -⟩ | hruntime
    · exact .inl (List.mem_map_of_mem hshown)
    · exact .inr (List.mem_map_of_mem hruntime)
  case aimed_once =>
    rw [haims, hcallees, hlabels]
    intro text htext hlocal
    obtain ⟨label, hlabel, rfl⟩ := List.mem_map.mp htext
    have hisLocal := hlocal
    rw [h.isLocalText_iff hlabel] at hisLocal
    refine ⟨h.count_aimed hlabel hisLocal, ?_⟩
    intro hcalled
    obtain ⟨callee, hcallee, htext⟩ := List.mem_map.mp hcalled
    have hnotLocal := h.isLocalText_of_mem_called callee hcallee
    rw [htext, hlocal] at hnotLocal
    cases hnotLocal
  case ordered => exact ⟨order, _, h.ordered hnodup hmem hinside⟩

end ProgramCode

end Code

/-- **Labels are unique and control flow is closed.**  The listing of a text that
compiles is linked: its labels carry the numbers that were drawn for it, each once, its
references lead to them, and its units come in order. -/
theorem compile_linked {source : String} {context final : Context} {listing : Listing}
    (h : (compile source).run context = .ok listing final) :
    ∃ tokens tree middle, Compilation.scan source = .ok tokens ∧
      (Compilation.checkTokens tokens).run context = .ok tree middle ∧
      listing.Linked tree (middle.title?.getD tree.name) context.labels final.labels := by
  obtain ⟨tokens, tree, middle, hscan, htokens, hgenerate⟩ := exists_stages_of_compile h
  refine ⟨tokens, tree, middle, hscan, htokens, ?_⟩
  obtain ⟨outline, skeleton, -, -, program⟩ := Compilation.exists_checkedProgram htokens
  obtain ⟨lines, hemits, rfl⟩ := Compilation.exists_emits_of_generate hgenerate
  obtain ⟨labels, hcode⟩ := Code.exists_programCode program hemits
  rw [Compilation.labels_of_checkTokens htokens] at hcode
  exact hcode.linked program.nodup_codeOrder (fun _ => program.mem_codeOrder_iff)
    (program.pairwise_codeOrder skeleton .top)

/-- The source of a program with a routine inside a routine, branches, a loop and a text. -/
def nestedRoutines : String :=
  "program p; procedure a(n: integer); procedure b; begin write('text') end;
    begin while n > 0 do begin if n = 1 then b else write(n); n := n - 1 end end;
    begin a(2) end."

/-- A program with routines inside each other, compiled after seven labels were drawn,
draws eight more: three for its units, four for its branches and one for its text. -/
theorem compile_linked_nested :
    ∃ listing final tokens tree middle,
      (compile nestedRoutines).run { Context.fresh false false with labels := 7 } =
        .ok listing final ∧
      Compilation.scan nestedRoutines = .ok tokens ∧
      (Compilation.checkTokens tokens).run { Context.fresh false false with labels := 7 } =
        .ok tree middle ∧
      final.labels = 15 ∧ listing.Linked tree (middle.title?.getD tree.name) 7 final.labels := by
  have hok : Compilation.endsWith (fun _ final => final.labels == 15)
      ((compile nestedRoutines).run { Context.fresh false false with labels := 7 }) = true := by
    decide +kernel
  obtain ⟨listing, final, hcompile, hfinal⟩ := Compilation.exists_of_endsWith hok
  obtain ⟨tokens, tree, middle, hscan, htokens, hlinked⟩ := compile_linked hcompile
  exact ⟨listing, final, tokens, tree, middle, hcompile, hscan, htokens, eq_of_beq hfinal, hlinked⟩

end MiniPascal
