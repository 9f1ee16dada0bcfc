import MiniPascal.Proofs.Binding.Notes
import MiniPascal.Proofs.Check.Block
import MiniPascal.Proofs.Tree.References

/-!
# What a check records

A step of a check that ends well records passages: it binds the uses in them, adds the lines
on these uses to a log whose switch is on, in the order of the passages, and leaves the uses in
all other passages as they are.  Steps in a row that record different passages record all of
them, in the order of the steps.
-/

namespace MiniPascal

/-! ### Changes that leave all uses alone -/

/-- The uses in all passages are the same, and so is all that is not annotated. -/
structure Tree.SameUses (before after : Tree) : Prop where
  erased_eq : after.erased = before.erased
  usesIn_eq : after.usesIn = before.usesIn

namespace Tree.SameUses

variable {tree after : Tree}

theorem modifyDecl (tree : Tree) (id : DeclId) {change : Decl → Decl}
    (h : ∀ decl, tree.decls[id]? = some decl →
      (change decl).erased = decl.erased ∧ (change decl).kind = decl.kind) :
    tree.SameUses (tree.modifyDecl id change) where
  erased_eq := erased_modifyDecl fun decl hdecl => (h decl hdecl).1
  usesIn_eq := by
    funext passage
    cases passage with
    | statements block => rfl
    | decl other =>
        change usesAt _ other = usesAt _ other
        rw [usesAt, usesAt, getElem?_decls_modifyDecl]
        split
        · next hid =>
            subst hid
            cases hdecl : tree.decls[id]? with
            | none => rfl
            | some decl => rw [Option.map_some, Option.map_some, (h decl hdecl).2, Option.map_some]
        · rfl

theorem modifyBlock (tree : Tree) (id : BlockId) {change : Block → Block}
    (herased : ∀ block, (change block).erased = block.erased)
    (hstatements : ∀ block, (change block).statements = block.statements) :
    tree.SameUses (tree.modifyBlock id change) where
  erased_eq := erased_modifyBlock fun block _ => herased block
  usesIn_eq := by
    funext passage
    cases passage with
    | decl other => rfl
    | statements block =>
        change Statement.usesAll _ = Statement.usesAll _
        rw [statementsOf, statementsOf, getElem?_blocks_modifyBlock]
        split
        · cases tree.blocks[block]? with
          | none => rfl
          | some found =>
              rw [Option.map_some, Option.map_some, hstatements, Option.map_some]
        · rfl

/-- What is fixed of a declaration changes no use. -/
theorem of_assign {id : DeclId} {assign : Decl → Except Diagnostic Decl}
    (hassign : ∀ decl assigned, assign decl = .ok assigned →
      assigned.erased = decl.erased ∧ assigned.kind = decl.kind)
    (h : (do let decl ← assign (← tree.decl id); return tree.modifyDecl id fun _ => decl) =
      .ok after) : tree.SameUses after := by
  obtain ⟨decl, assigned, hfound, hassigned, rfl⟩ := exists_of_assign_eq_ok h
  refine modifyDecl tree id fun found hdecl => ?_
  rw [decl_eq_ok hdecl] at hfound
  obtain rfl := Except.ok.inj hfound
  exact hassign found assigned hassigned

theorem of_assignLevel {id : DeclId} {level : Nat} (h : tree.assignLevel id level = .ok after) :
    tree.SameUses after := by
  refine of_assign (fun decl assigned hassign => ?_) h
  unfold Decl.assignLevel at hassign
  split at hassign
  · cases hassign
  · cases hassign
    exact ⟨rfl, rfl⟩

theorem of_assignLayout {id : DeclId} {layout : Layout}
    (h : tree.assignLayout id layout = .ok after) : tree.SameUses after := by
  refine of_assign (fun decl assigned hassign => ?_) h
  unfold Decl.assignLayout at hassign
  split at hassign
  · cases hassign
  · cases hassign
    exact ⟨rfl, rfl⟩

theorem of_declare {block : BlockId} {id : DeclId} (h : tree.declare block id = .ok after) :
    tree.SameUses after := by
  obtain ⟨decl, found, -, -, -, rfl⟩ := exists_of_declare_eq_ok h
  exact modifyBlock tree block (fun _ => rfl) fun _ => rfl

end Tree.SameUses

namespace Check

variable {α β : Type}

/-! ### Recording -/

/-- Between two states the log got the lines on some uses, which are not yet in the tree, and
then those on the uses in some passages. -/
structure Records (uses : List Use) (passages : List Passage) (before after : Checking) :
    Prop where
  erased_eq : after.tree.erased = before.tree.erased
  notes : ∃ lines, after.log = before.log.append lines ∧
    (uses ++ passages.flatMap after.tree.usesIn).map (after.tree.noteBy Decl.unlined) =
      lines.map some
  kept : ∀ passage ∉ passages, after.tree.usesIn passage = before.tree.usesIn passage

namespace Records

variable {uses : List Use} {passages passages' : List Passage} {before middle after : Checking}

theorem of_sameUses (htree : before.tree.SameUses after.tree) (hlog : after.log = before.log) :
    Records [] [] before after where
  erased_eq := htree.erased_eq
  notes := ⟨[], by rw [hlog, Log.append_nil], rfl⟩
  kept _ _ := by rw [htree.usesIn_eq]

theorem refl (state : Checking) : Records [] [] state state :=
  of_sameUses ⟨rfl, rfl⟩ rfl

/-- Passages that are recorded later are other ones. -/
theorem trans (first : Records uses passages before middle)
    (second : Records [] passages' middle after) (h : passages.Disjoint passages') :
    Records uses (passages ++ passages') before after where
  erased_eq := second.erased_eq.trans first.erased_eq
  notes := by
    obtain ⟨lines, hlog, hnotes⟩ := first.notes
    obtain ⟨lines', hlog', hnotes'⟩ := second.notes
    refine ⟨lines ++ lines', by rw [hlog', hlog, Log.append_append], ?_⟩
    have hkept : passages.flatMap after.tree.usesIn = passages.flatMap middle.tree.usesIn :=
      List.flatMap_congr fun passage hpassage => second.kept passage fun hmem => h hpassage hmem
    have hsame := Tree.noteBy_unlined_of_erased_eq second.erased_eq
    rw [List.nil_append] at hnotes'
    rw [List.flatMap_append, hkept, ← List.append_assoc, List.map_append, hnotes', hsame, hnotes,
      List.map_append]
  kept passage hpassage := by
    rw [List.mem_append, not_or] at hpassage
    rw [second.kept passage hpassage.2, first.kept passage hpassage.1]

/-- The passage that uses are taken over into is recorded before the others. -/
theorem store {passage : Passage} (h : Records uses passages before middle)
    (hpassage : passage ∉ passages) (herased : after.tree.erased = middle.tree.erased)
    (hlog : after.log = middle.log) (hstored : after.tree.usesIn passage = uses)
    (hothers : ∀ other, other ≠ passage → after.tree.usesIn other = middle.tree.usesIn other) :
    Records [] (passage :: passages) before after where
  erased_eq := herased.trans h.erased_eq
  notes := by
    obtain ⟨lines, hlines, hnotes⟩ := h.notes
    refine ⟨lines, hlog.trans hlines, ?_⟩
    have hkept : passages.flatMap after.tree.usesIn = passages.flatMap middle.tree.usesIn :=
      List.flatMap_congr fun other hother => hothers other fun heq => hpassage (heq ▸ hother)
    rw [List.nil_append, List.flatMap_cons, hstored, hkept,
      Tree.noteBy_unlined_of_erased_eq herased, hnotes]
  kept other hother := by
    rw [List.mem_cons, not_or] at hother
    rw [hothers other hother.1, h.kept other hother.2]

theorem log_eq (h : Records [] [] before after) : after.log = before.log := by
  obtain ⟨lines, hlog, hnotes⟩ := h.notes
  obtain rfl : lines = [] := List.map_eq_nil_iff.mp hnotes.symm
  rw [hlog, Log.append_nil]

theorem binding_eq (h : Records uses passages before after) :
    after.log.binding = before.log.binding := by
  obtain ⟨lines, hlog, -⟩ := h.notes
  rw [hlog, Log.binding_append]

end Records

/-- Nothing is asked of a failure. -/
abbrev anyFailure : Diagnostic → Checking → Prop := fun _ _ => True

/-- If it ends well, the step records the passages in a log whose switch is on. -/
def Recorded (passages : List Passage) (step : Check α) (start : Checking) : Prop :=
  start.log.binding = true →
    step.Ends start (fun _ final => Records [] passages start final) anyFailure

/-- If it ends well, the step records nothing. -/
def Silent (step : Check α) : Prop :=
  ∀ start, step.Ends start (fun _ final => Records [] [] start final) anyFailure

section Steps

variable {start middle : Checking} {uses : List Use} {passages passages' : List Passage}

theorem ends_ask_cases {query : Tree → Except Diagnostic α} {done : α → Checking → Prop}
    (h : ∀ answer, query start.tree = .ok answer → done answer start) :
    Ends (ask query) start done anyFailure := by
  cases hquery : query start.tree with
  | ok answer => exact ends_ask hquery (h answer hquery)
  | error diagnostic =>
      unfold ask
      refine ends_bind (ends_get ?_)
      rw [hquery]
      exact ends_throw trivial

theorem Silent.after {step : Check α} (h : Silent step)
    (records : Records uses passages start middle) :
    step.Ends middle (fun _ final => Records uses passages start final) anyFailure := by
  refine (h middle).mono fun _ final hfinal => ?_
  have hall := records.trans hfinal (List.disjoint_nil_right _)
  rwa [List.append_nil] at hall

theorem Silent.recorded {step : Check α} (h : Silent step) (start : Checking) :
    Recorded [] step start :=
  fun _ => h start

theorem recorded_bind {first : Check α} {next : α → Check β}
    (hfirst : Recorded passages first start) (h : passages.Disjoint passages')
    (hnext : ∀ value middle, Records [] passages start middle →
      Recorded passages' (next value) middle) :
    Recorded (passages ++ passages') (first >>= next) start := by
  intro hswitch
  refine ends_bind ((hfirst hswitch).mono fun value middle hmiddle => ?_)
  refine (hnext value middle hmiddle (hmiddle.binding_eq.trans hswitch)).mono ?_
  exact fun _ final hfinal => hmiddle.trans hfinal h

/-- What is asked of the tree, and then recorded. -/
theorem recorded_ask {query : Tree → Except Diagnostic α} {next : α → Check β}
    (hnext : ∀ answer, query start.tree = .ok answer → Recorded passages (next answer) start) :
    Recorded passages (ask query >>= next) start := fun hswitch =>
  ends_bind (ends_ask_cases fun answer hanswer => hnext answer hanswer hswitch)

/-- A step that records nothing before one that does. -/
theorem Silent.bind_recorded {first : Check α} {next : α → Check β} (hfirst : Silent first)
    (hnext : ∀ value middle, middle.tree.erased = start.tree.erased →
      Recorded passages (next value) middle) :
    Recorded passages (first >>= next) start :=
  recorded_bind (hfirst.recorded start) (List.disjoint_nil_left _) fun value middle hmiddle =>
    hnext value middle hmiddle.erased_eq

/-- A step that records nothing after one that does. -/
theorem Recorded.bind_silent {first : Check α} {next : α → Check β}
    (hfirst : Recorded passages first start) (hnext : ∀ value, Silent (next value)) :
    Recorded passages (first >>= next) start := fun hswitch =>
  ends_bind ((hfirst hswitch).mono fun value _ hmiddle => (hnext value).after hmiddle)

theorem recorded_forM {items : List α} {step : α → Check PUnit} {passages : α → List Passage}
    (hnodup : (items.flatMap passages).Nodup)
    (hstep : ∀ item ∈ items, ∀ state, state.tree.erased = start.tree.erased →
      Recorded (passages item) (step item) state) :
    Recorded (items.flatMap passages) (items.forM step) start := by
  induction items generalizing start with
  | nil => exact fun _ => ends_pure (.refl start)
  | cons item others ih =>
      rw [List.flatMap_cons] at hnodup ⊢
      obtain ⟨-, hothers, hdisjoint⟩ := List.nodup_append'.mp hnodup
      obtain ⟨hitem, hrest⟩ := List.forall_mem_cons.mp hstep
      refine recorded_bind (hitem start rfl) hdisjoint fun _ middle hmiddle => ?_
      exact ih hothers fun other hother state hstate =>
        hrest other hother state (hstate.trans hmiddle.erased_eq)

end Steps

/-! ### Steps that record nothing -/

theorem silent_pure (value : α) : Silent (pure value) := fun start =>
  ends_pure (.refl start)

theorem silent_throw (diagnostic : Diagnostic) : Silent (throw diagnostic : Check α) := fun _ =>
  ends_throw trivial

theorem silent_bind {first : Check α} {next : α → Check β} (hfirst : Silent first)
    (hnext : ∀ value, Silent (next value)) : Silent (first >>= next) := fun start =>
  ends_bind ((hfirst start).mono fun value _ hmiddle => (hnext value).after hmiddle)

theorem silent_map {first : Check α} (change : α → β) (hfirst : Silent first) :
    Silent (change <$> first) := fun start =>
  ends_map (hfirst start)

theorem silent_get : Silent (get : Check Checking) := fun start =>
  ends_get (.refl start)

theorem silent_modify {change : Checking → Checking}
    (h : ∀ state : Checking, (change state).tree = state.tree ∧ (change state).log = state.log) :
    Silent (modify change) := fun start => by
  have htree : start.tree.SameUses (change start).tree := by
    rw [(h start).1]
    exact ⟨rfl, rfl⟩
  exact ends_modify (.of_sameUses htree (h start).2)

theorem silent_onTree {step : Tree → Except Diagnostic Tree}
    (h : ∀ tree after, step tree = .ok after → tree.SameUses after) : Silent (onTree step) :=
  fun start => ends_onTree_cases (fun tree htree => .of_sameUses (h start.tree tree htree) rfl)
    fun _ _ => trivial

theorem silent_ask (query : Tree → Except Diagnostic α) : Silent (ask query) := fun start =>
  ends_ask_cases fun _ _ => .refl start

theorem silent_forM (items : List α) {step : α → Check PUnit} (hstep : ∀ item, Silent (step item)) :
    Silent (items.forM step) := by
  induction items with
  | nil => exact silent_pure _
  | cons item items ih => exact silent_bind (hstep item) fun _ => ih

theorem silent_assignLevel (id : DeclId) (level : Nat) : Silent (onTree (·.assignLevel id level)) :=
  silent_onTree fun _ _ => .of_assignLevel

theorem silent_assignLayout (id : DeclId) (layout : Layout) :
    Silent (onTree (·.assignLayout id layout)) :=
  silent_onTree fun _ _ => .of_assignLayout

theorem silent_enterTable (block : BlockId) (id : DeclId) : Silent (onTree (·.declare block id)) :=
  silent_onTree fun _ _ => .of_declare

theorem silent_modifyBlock (id : BlockId) {change : Block → Block}
    (herased : ∀ block, (change block).erased = block.erased)
    (hstatements : ∀ block, (change block).statements = block.statements) :
    Silent (onTree fun tree => .ok (tree.modifyBlock id change)) :=
  silent_onTree fun tree _ h => by
    cases h
    exact .modifyBlock tree id herased hstatements

theorem silent_allocate : Silent allocate := fun _ =>
  .of_sameUses ⟨rfl, rfl⟩ rfl

theorem silent_layoutOf (kind : DeclKind) : Silent (layoutOf kind) := by
  cases kind with
  | variableOf => exact silent_map _ silent_allocate
  | routine heading =>
      rw [layoutOf]
      split
      · split
        · exact silent_map _ silent_allocate
        · exact silent_bind silent_get fun _ => silent_pure _
      · exact silent_pure _
  | constant | type | parameter | enumLiteral => exact silent_pure _

theorem silent_enter (block : BlockId) (level : Nat) (id : DeclId) :
    Silent (enter block level id) :=
  silent_bind (silent_assignLevel id level) fun _ => silent_enterTable block id

theorem silent_declareParams (block : BlockId) (level frameLevel index : Nat)
    (params : List DeclId) : Silent (declareParams block level frameLevel index params) := by
  induction params generalizing index with
  | nil => exact silent_pure _
  | cons param others ih =>
      exact silent_bind (silent_assignLevel param level) fun _ =>
        silent_bind (silent_assignLayout param _) fun _ =>
          silent_bind (silent_enterTable block param) fun _ => ih (index + 1)

theorem silent_enterBlock (block : BlockId) (owner : String) (ownsFrame : Bool) :
    Silent (enterBlock block owner ownsFrame) := by
  refine silent_bind (silent_modify fun _ => ⟨rfl, rfl⟩) fun _ => ?_
  refine silent_bind silent_get fun state => silent_bind (silent_ask _) fun found => ?_
  have hannotate : Silent (do
      onTree fun tree => .ok (tree.modifyBlock block fun block =>
        { block with
          level := state.scope.current.level
          frameLevel := state.scope.current.frameLevel
          frameOwner? := some state.scope.current.frameOwner })
      return state.scope.current) :=
    silent_bind (silent_modifyBlock block (fun _ => rfl) fun _ => rfl) fun _ => silent_pure _
  split
  · exact silent_bind (silent_throw _) fun _ => hannotate
  · exact hannotate

theorem silent_leaveBlock (block : BlockId) (ownsFrame : Bool) :
    Silent (leaveBlock block ownsFrame) := by
  refine silent_bind silent_get fun state => ?_
  split
  · exact silent_throw _
  · exact silent_bind (silent_modify fun _ => ⟨rfl, rfl⟩) fun _ =>
      silent_modifyBlock block (fun _ => rfl) fun _ => rfl

end Check

end MiniPascal
