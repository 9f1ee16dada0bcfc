import MiniPascal.Proofs.Tree.Numbering
import MiniPascal.Proofs.Tree.Spots

/-!
# What declarations are called and where they stand

A declaration of a tree has the name of a token of the text, and the line that a node of the
text reports.  So the names of a tree satisfy what the names in its text do, and the lines
of its declarations what the lines of its nodes do.
-/

namespace MiniPascal

variable {named : String → Prop} {lined : Nat → Prop}

/-! ### Names and lines of a text -/

/-- The names among the spots and the lines beside them have the given properties. -/
structure Tells (named : String → Prop) (lined : Nat → Prop) (spots : List Spot) : Prop where
  name : ∀ spot ∈ spots, ∀ name, spot.token = .name name → named name
  line : ∀ spot ∈ spots, ∀ node ∈ spot.nodes, lined node.line

namespace Tells

variable {spots part : List Spot} {first : Spot} {kind : NodeKind} {line : Nat}

theorem mono (h : Tells named lined spots) (hpart : part ⊆ spots) : Tells named lined part where
  name spot hspot := h.name spot (hpart hspot)
  line spot hspot := h.line spot (hpart hspot)

/-- A node says its line, and what its pieces say. -/
theorem of_nodeAt (h : Tells named lined (nodeAt kind line (first :: spots))) :
    lined line ∧ Tells named lined (first :: spots) := by
  obtain ⟨hname, hnames⟩ := List.forall_mem_cons.mp h.name
  obtain ⟨hnode, hnodes⟩ := List.forall_mem_cons.mp h.line
  obtain ⟨hline, hfirst⟩ := List.forall_mem_cons.mp hnode
  exact ⟨hline, List.forall_mem_cons.mpr ⟨hname, hnames⟩,
    List.forall_mem_cons.mpr ⟨hfirst, hnodes⟩⟩

/-- The first token is a name. -/
theorem name_head {name : String} (h : Tells named lined (.bare (.name name) :: spots)) :
    named name :=
  h.name _ List.mem_cons_self name rfl

theorem tail (h : Tells named lined (first :: spots)) : Tells named lined spots :=
  h.mono (List.subset_cons_self first spots)

theorem left (h : Tells named lined (spots ++ part)) : Tells named lined spots :=
  h.mono (List.subset_append_left spots part)

theorem right (h : Tells named lined (spots ++ part)) : Tells named lined part :=
  h.mono (List.subset_append_right spots part)

/-- A piece of a text says no more than the text. -/
theorem of_flatMap {α : Type} {pieces : α → List Spot} {items : List α} {item : α}
    (h : Tells named lined (items.flatMap pieces)) (hitem : item ∈ items) :
    Tells named lined (pieces item) :=
  h.mono fun _ hspot => List.mem_flatMap.mpr ⟨item, hitem, hspot⟩

theorem of_separatedSpots {mark : Symbol} {pieces : List (List Spot)} {piece : List Spot}
    (h : Tells named lined (separatedSpots mark pieces)) (hpiece : piece ∈ pieces) :
    Tells named lined piece := by
  cases pieces with
  | nil => exact absurd hpiece List.not_mem_nil
  | cons first others =>
      obtain rfl | hother := List.mem_cons.mp hpiece
      · exact h.left
      · exact (h.right.of_flatMap hother).tail

/-- The declaration of a routine says its name, its parameters and its body. -/
theorem of_routineSpots {name : String} {params : List (List Spot)} {result : Option NameRef}
    {body : List Spot} (h : Tells named lined (routineSpots name line params result body)) :
    named name ∧ lined line ∧ (∀ param ∈ params, Tells named lined param) ∧
      Tells named lined body := by
  have hparameters : Tells named lined (parametersSpots params) →
      ∀ param ∈ params, Tells named lined param := by
    intro hparams param hparam
    cases params with
    | nil => exact absurd hparam List.not_mem_nil
    | cons first others => exact hparams.tail.left.of_separatedSpots hparam
  cases result with
  | none =>
      obtain ⟨hline, hrest⟩ := of_nodeAt h
      have hinside := hrest.tail.tail
      exact ⟨hrest.tail.name_head, hline, hparameters hinside.left, hinside.right.tail.left⟩
  | some type =>
      obtain ⟨hline, hrest⟩ := of_nodeAt h
      have hinside := hrest.tail.tail
      exact ⟨hrest.tail.name_head, hline, hparameters hinside.left,
        hinside.right.tail.right.tail.left⟩

/-- A block says its parts, which stand in front of its statements. -/
theorem of_blockSpots {parts : List Spot} {statements : List Statement}
    (h : Tells named lined (blockSpots line parts statements)) : Tells named lined parts := by
  cases parts with
  | nil => exact ⟨nofun, nofun⟩
  | cons first parts => exact (of_nodeAt h).2.left

end Tells

/-! ### Numbering -/

/-- The declarations numbered so far are called and stand as the text says. -/
def Arena.Declared (named : String → Prop) (lined : Nat → Prop) (arena : Arena) : Prop :=
  ∀ decl ∈ arena.decls, named decl.name ∧ lined decl.line

theorem Arena.Declared.addDecl {arena : Arena} (h : arena.Declared named lined) {decl : Decl}
    (hname : named decl.name) (hline : lined decl.line) :
    (Arena.addDecl decl arena).2.Declared named lined := by
  intro other hother
  rcases Array.mem_push.mp hother with hold | rfl
  · exact h other hold
  · exact ⟨hname, hline⟩

namespace Outline

theorem numberLiterals_declared (code : Nat) (idents : List Ident) {before : Arena}
    (h : before.Declared named lined)
    (htold : ∀ ident ∈ idents, Tells named lined (identSpots ident)) :
    (numberLiterals code idents before).2.Declared named lined := by
  induction idents generalizing code before with
  | nil => exact h
  | cons ident others ih =>
      obtain ⟨hfirst, hothers⟩ := List.forall_mem_cons.mp htold
      obtain ⟨hline, hident⟩ := hfirst.of_nodeAt
      exact ih (code + 1) (h.addDecl hident.name_head hline) hothers

theorem numberType_declared (type : TypeExpr Ident) {before : Arena}
    (h : before.Declared named lined) (htold : Tells named lined (type.spots identSpots)) :
    (numberType type before).2.Declared named lined := by
  induction type generalizing before with
  | named | range | builtin => exact h
  | array index element line ihIndex ihElement =>
      have hinside := htold.of_nodeAt.2.tail.tail
      exact ihElement (ihIndex h hinside.left) hinside.right.tail.tail
  | enumeration idents line =>
      have hliterals := htold.of_nodeAt.2.tail.left
      exact numberLiterals_declared 0 idents h fun ident hident =>
        hliterals.of_separatedSpots (List.mem_map_of_mem hident)

theorem numberAll_declared {α : Type} (kind : α → DeclKind) (decls : List (Ident × α))
    {before : Arena} (h : before.Declared named lined)
    (htold : ∀ decl ∈ decls, named decl.1.name ∧ lined decl.1.line) :
    (numberAll kind decls before).2.Declared named lined := by
  induction decls generalizing before with
  | nil => exact h
  | cons decl others ih =>
      obtain ⟨⟨hname, hline⟩, hothers⟩ := List.forall_mem_cons.mp htold
      exact ih (h.addDecl hname hline) hothers

theorem numberTyped_declared {mark : Symbol} (kind : TypeExpr DeclId → DeclKind)
    (decls : List (Ident × TypeExpr Ident)) {before : Arena} (h : before.Declared named lined)
    (htold : ∀ decl ∈ decls, Tells named lined (typedSpots mark decl)) :
    (numberTyped kind decls before).2.Declared named lined := by
  induction decls generalizing before with
  | nil => exact h
  | cons decl others ih =>
      obtain ⟨ident, type⟩ := decl
      obtain ⟨hfirst, hothers⟩ := List.forall_mem_cons.mp htold
      obtain ⟨hline, hdecl⟩ := hfirst.of_nodeAt
      have htype := numberType_declared type h hdecl.tail.tail.left
      exact ih (htype.addDecl hdecl.name_head hline) hothers

mutual

theorem numberBlock_declared (enclosing : BlockId) (outline : Block) {before : Arena}
    (h : before.Declared named lined) (htold : Tells named lined outline.spots) :
    (numberBlock enclosing outline before).2.Declared named lined := by
  cases outline with
  | mk line parts statements =>
      have hstart :
          (Arena.addBlock (.bare (some enclosing) line) before).2.Declared named lined := h
      exact numberParts_declared before.blocks.size parts hstart htold.of_blockSpots

theorem numberParts_declared (block : BlockId) (parts : List Part) {before : Arena}
    (h : before.Declared named lined) (htold : Tells named lined (partsSpots parts)) :
    (numberParts block parts before).2.Declared named lined := by
  cases parts with
  | nil => exact h
  | cons part others =>
      have hpart := numberPart_declared block part h htold.left
      exact numberParts_declared block others hpart htold.right

theorem numberPart_declared (block : BlockId) (part : Part) {before : Arena}
    (h : before.Declared named lined) (htold : Tells named lined part.spots) :
    (numberPart block part before).2.Declared named lined := by
  cases part with
  | constants decls =>
      apply numberAll_declared .constant decls h
      intro decl hdecl
      obtain ⟨hline, hspots⟩ := (htold.tail.of_flatMap hdecl).of_nodeAt
      exact ⟨hspots.name_head, hline⟩
  | types decls =>
      exact numberTyped_declared .type decls h fun decl hdecl => htold.tail.of_flatMap hdecl
  | vars decls =>
      exact numberTyped_declared .variableOf decls h fun decl hdecl => htold.tail.of_flatMap hdecl
  | routine heading body =>
      obtain ⟨hname, hline, hparameters, hbody⟩ := Tells.of_routineSpots htold
      have hparams : (numberAll .parameter heading.params before).2.Declared named lined := by
        apply numberAll_declared .parameter heading.params h
        intro param hparam
        obtain ⟨hline, hspots⟩ := (hparameters _ (List.mem_map_of_mem hparam)).of_nodeAt
        exact ⟨hspots.name_head, hline⟩
      exact (numberBlock_declared block body hparams hbody).addDecl hname hline

end

/-- The declarations of a tree are called as tokens of its text are, and stand on the lines of
its nodes. -/
theorem ofOutline_declared {outline : Outline} (h : Tells named lined outline.spots) :
    ∀ decl ∈ (Tree.ofOutline outline).decls, named decl.name ∧ lined decl.line :=
  numberBlock_declared libraryBlock outline.body
    (fun decl hdecl => absurd hdecl (Array.not_mem_empty decl)) h.of_nodeAt.2.tail.tail.tail.left

end Outline

end MiniPascal
