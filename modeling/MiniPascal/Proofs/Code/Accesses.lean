import MiniPascal.Proofs.Binding.Exprs
import MiniPascal.Proofs.Code.Bodies

/-!
# Accesses in code

Code takes a word of the display only to load or store the word of a declaration in the
next line, and stores no other words.  The declaration is one that a name in the statements
is bound to, or the function whose result a body without a frame leaves in `eax`.
-/

namespace MiniPascal.Assembly.Line

def fetched? : Line → Option Int
  | instruction _ (.move (.memory offset .ebp) (.register .edx)) _ => some offset
  | _ => none

def stored? : Line → Option Int
  | instruction _ (.move _ (.memory offset _)) _ => some offset
  | _ => none

/-- The line takes no display word and stores nothing. -/
def isPlain (line : Line) : Bool :=
  line.fetched?.isNone && line.stored?.isNone

theorem isPlain_iff {line : Line} :
    line.isPlain = true ↔ line.fetched? = none ∧ line.stored? = none := by
  rw [isPlain, Bool.and_eq_true, Option.isNone_iff_eq_none, Option.isNone_iff_eq_none]

end MiniPascal.Assembly.Line

namespace MiniPascal.Code

open MiniPascal.Assembly
open Emit

/-! ### Pairs of lines -/

/-- Lines in which display words are taken and words are stored in pairs of lines only, for
a declaration at its layout. -/
inductive Accessing (access : DeclId → Layout → Line → Prop) : List Line → Prop
  | nil : Accessing access []
  | plain {line : Line} {lines : List Line} (hline : line.isPlain = true)
      (h : Accessing access lines) : Accessing access (line :: lines)
  | word {id : DeclId} {layout : Layout} {next : Line} {lines : List Line}
      (hnext : access id layout next) (h : Accessing access lines) :
      Accessing access (.instruction none (.move layout.base .edx) "" :: next :: lines)

/-- The second line of an access to the word of a declaration, for a use of its name. -/
inductive WordUse (tree : Tree) (uses : List Use) (id : DeclId) (layout : Layout) : Line → Prop
  | load {ref : NameRef} {decl : Decl} (huse : (.value, ref) ∈ uses) (hid : ref.decl? = some id)
      (hdecl : tree.decls[id]? = some decl) (hlayout : decl.layout? = some layout) :
      WordUse tree uses id layout (.instruction none (.move layout.slot .eax) decl.name)
  | store {ref : NameRef} {decl : Decl} (huse : (.target, ref) ∈ uses) (hid : ref.decl? = some id)
      (hdecl : tree.decls[id]? = some decl) (hlayout : decl.layout? = some layout) :
      WordUse tree uses id layout (.instruction none (.move .eax layout.slot) (decl.name ++ " :="))

namespace Accessing

variable {access access' : DeclId → Layout → Line → Prop} {lines lines' : List Line}

theorem append (h : Accessing access lines) (h' : Accessing access lines') :
    Accessing access (lines ++ lines') := by
  induction h with
  | nil => exact h'
  | plain hline _ ih => exact .plain hline ih
  | word hnext _ ih => exact .word hnext ih

theorem mono (h : Accessing access lines)
    (himp : ∀ id layout next, access id layout next → access' id layout next) :
    Accessing access' lines := by
  induction h with
  | nil => exact .nil
  | plain hline _ ih => exact .plain hline ih
  | word hnext _ ih => exact .word (himp _ _ _ hnext) ih

/-- Where a display word is taken, the next line accesses the word of a declaration. -/
theorem exists_of_fetched (h : Accessing access lines)
    (hnext : ∀ id layout next, access id layout next → next.fetched? = none)
    {before after : List Line}
    {line : Line} {offset : Int} (hlines : lines = before ++ line :: after)
    (hfetched : line.fetched? = some offset) :
    ∃ id layout next rest, after = next :: rest ∧ offset = Frame.displayOffset layout.frameLevel ∧
      access id layout next := by
  induction h generalizing before with
  | nil => exact absurd hlines (List.append_ne_nil_of_right_ne_nil _ (List.cons_ne_nil _ _)).symm
  | plain hline _ ih =>
      cases before with
      | nil =>
          obtain ⟨rfl, -⟩ := List.cons.inj hlines
          cases (Line.isPlain_iff.mp hline).1.symm.trans hfetched
      | cons first before => exact ih (List.cons.inj hlines).2
  | @word id layout next rest haccess _ ih =>
      cases before with
      | nil =>
          obtain ⟨rfl, rfl⟩ := List.cons.inj hlines
          exact ⟨id, layout, next, rest, rfl, (Option.some.inj hfetched).symm, haccess⟩
      | cons first before =>
          have htail := (List.cons.inj hlines).2
          cases before with
          | nil =>
              obtain ⟨rfl, -⟩ := List.cons.inj htail
              cases (hnext id layout _ haccess).symm.trans hfetched
          | cons second before => exact ih (List.cons.inj htail).2

/-- Where a word is stored, the line before takes the display word for it. -/
theorem exists_of_stored (h : Accessing access lines) {before after : List Line}
    {line : Line} {offset : Int} (hlines : lines = before ++ line :: after)
    (hstored : line.stored? = some offset) :
    ∃ id layout front, before = front ++ [.instruction none (.move layout.base .edx) ""] ∧
      access id layout line := by
  induction h generalizing before with
  | nil => exact absurd hlines (List.append_ne_nil_of_right_ne_nil _ (List.cons_ne_nil _ _)).symm
  | plain hline _ ih =>
      cases before with
      | nil =>
          obtain ⟨rfl, -⟩ := List.cons.inj hlines
          cases (Line.isPlain_iff.mp hline).2.symm.trans hstored
      | cons first before =>
          obtain ⟨id, layout, front, rfl, haccess⟩ := ih (List.cons.inj hlines).2
          exact ⟨id, layout, first :: front, rfl, haccess⟩
  | @word id layout next rest haccess _ ih =>
      cases before with
      | nil =>
          obtain ⟨rfl, -⟩ := List.cons.inj hlines
          cases hstored
      | cons first before =>
          obtain ⟨rfl, htail⟩ := List.cons.inj hlines
          cases before with
          | nil =>
              obtain ⟨rfl, -⟩ := List.cons.inj htail
              exact ⟨id, layout, [], rfl, haccess⟩
          | cons second before =>
              obtain ⟨id', layout', front, rfl, haccess'⟩ := ih (List.cons.inj htail).2
              exact ⟨id', layout', _ :: second :: front, rfl, haccess'⟩

end Accessing

/-! ### Fixed lines -/

section Lines

variable {access : DeclId → Layout → Line → Prop}

theorem accessing_operationLines (op : BinaryOp) : Accessing access (operationLines op) := by
  cases op with
  | add | subtract | or | multiply | and => exact .plain rfl .nil
  | divide => exact .plain rfl (.plain rfl .nil)
  | modulo => exact .plain rfl (.plain rfl (.plain rfl .nil))

theorem accessing_popLines (args : Nat) : Accessing access (popLines args) := by
  unfold popLines
  split
  · exact .nil
  · exact .plain rfl .nil

theorem accessing_textLines (text : String) (number : Nat) :
    Accessing access (textLines text number) :=
  .plain rfl (.plain rfl (.plain rfl (.plain rfl (.plain rfl .nil))))

theorem accessing_writeLines (function : Label) : Accessing access (writeLines function) :=
  .plain rfl (.plain rfl (.plain rfl .nil))

theorem accessing_comparisonLines (relation : Relation) :
    Accessing access (comparisonLines relation) :=
  .plain rfl (.plain rfl (.plain rfl (.plain rfl .nil)))

theorem accessing_branchLines (target : Label) : Accessing access (branchLines target) :=
  .plain rfl (.plain rfl .nil)

theorem accessing_resultLines (isFunction : Bool) : Accessing access (resultLines isFunction) := by
  cases isFunction with
  | false => exact .nil
  | true => exact .plain rfl .nil

end Lines

/-! ### Expressions -/

section Emitted

variable {env : Env} {uses : List Use}

theorem accessing_pure {counter final : Nat} {lines : List Line}
    (h : (pure () : Emit Unit).Emits counter lines final ()) :
    Accessing (WordUse env.tree uses) lines := by
  obtain ⟨rfl, -⟩ := emits_pure_iff.mp h
  exact .nil

/-- A call accesses what its arguments do. -/
theorem Calls.accessing {id : DeclId} {args : Nat} {pushed written : Emit Unit}
    {counter final : Nat} {lines : List Line}
    (h : Calls env id args pushed written counter lines final)
    (hpushed : ∀ {counter final lines}, pushed.Emits counter lines final () →
      Accessing (WordUse env.tree uses) lines)
    (hwritten : ∀ {counter final lines}, written.Emits counter lines final () →
      Accessing (WordUse env.tree uses) lines) : Accessing (WordUse env.tree uses) lines := by
  cases h with
  | builtin _ _ _ hemits => exact hwritten hemits
  | routine _ _ _ _ hemits => exact (hpushed hemits).append (.plain rfl (accessing_popLines args))

theorem NameCode.accessing {ref : NameRef} {index : Emit Unit}
    {counter final : Nat} {lines : List Line}
    (h : NameCode env ref index counter lines final) (huse : (.value, ref) ∈ uses)
    (hindex : ∀ {counter final lines}, index.Emits counter lines final () →
      Accessing (WordUse env.tree uses) lines) : Accessing (WordUse env.tree uses) lines := by
  cases h with
  | word hid hdecl _ hlayout hemits =>
      exact (hindex hemits).append (.word (.load huse hid hdecl hlayout) .nil)
  | number => exact .plain rfl .nil
  | function _ hcalls => exact hcalls.accessing accessing_pure accessing_pure

mutual

/-- The code of an expression accesses the words of the variables and parameters in it. -/
theorem accessing_expr (source : Expr) {counter final : Nat} {lines : List Line}
    (hsource : source.uses ⊆ uses) (h : (expr env source).Emits counter lines final ()) :
    Accessing (WordUse env.tree uses) lines := by
  cases source with
  | literal value line =>
      obtain ⟨rfl, rfl⟩ := emits_literal h
      exact .plain rfl .nil
  | name ref =>
      have huse := hsource (List.mem_singleton_self _)
      exact (emits_name h).accessing huse accessing_pure
  | element ref index =>
      rw [Expr.uses] at hsource
      obtain ⟨huse, hindex⟩ := List.cons_subset.mp hsource
      exact (emits_element h).accessing huse fun hemits => accessing_expr index hindex hemits
  | call ref args =>
      obtain ⟨id, -, hcalls⟩ := emits_callExpr h
      rw [Expr.uses] at hsource
      have hargs := (List.cons_subset.mp hsource).2
      exact hcalls.accessing (fun hpushed => accessing_pushAll args hargs hpushed)
        (fun hwritten => accessing_writeAll args hargs hwritten)
  | group inner line =>
      rw [expr] at h
      exact accessing_expr inner hsource h
  | negation operand line =>
      obtain ⟨front, hoperand, rfl⟩ := emits_negation h
      exact (accessing_expr operand hsource hoperand).append (.plain rfl .nil)
  | signed sign operand line =>
      cases sign with
      | plus =>
          rw [expr] at h
          exact accessing_expr operand hsource h
      | minus =>
          obtain ⟨front, hoperand, rfl⟩ := emits_minus h
          exact (accessing_expr operand hsource hoperand).append (.plain rfl .nil)
  | binary op left right =>
      obtain ⟨first, middle, second, hleft, hright, rfl⟩ := emits_binary h
      rw [Expr.uses] at hsource
      obtain ⟨hfirst, hsecond⟩ := List.append_subset.mp hsource
      exact (accessing_expr left hfirst hleft).append (.plain rfl
        ((accessing_expr right hsecond hright).append
          (.plain rfl (.plain rfl (accessing_operationLines op)))))
  | comparison relation left right =>
      obtain ⟨first, middle, second, hleft, hright, rfl⟩ := emits_comparison h
      rw [Expr.uses] at hsource
      obtain ⟨hfirst, hsecond⟩ := List.append_subset.mp hsource
      exact (accessing_expr left hfirst hleft).append (.plain rfl
        ((accessing_expr right hsecond hright).append (accessing_comparisonLines relation)))

theorem accessing_pushAll (args : List Expr) {counter final : Nat} {lines : List Line}
    (hargs : Expr.usesAll args ⊆ uses) (h : (pushAll env args).Emits counter lines final ()) :
    Accessing (WordUse env.tree uses) lines := by
  cases args with
  | nil =>
      obtain ⟨rfl, rfl⟩ := emits_pushAll_nil h
      exact .nil
  | cons arg others =>
      obtain ⟨first, middle, second, hfirst, hsecond, rfl⟩ := emits_pushAll_cons h
      rw [Expr.usesAll] at hargs
      obtain ⟨harg, hothers⟩ := List.append_subset.mp hargs
      exact (accessing_pushAll others hothers hfirst).append
        ((accessing_expr arg harg hsecond).append (.plain rfl .nil))

theorem accessing_writeAll (args : List Expr) {counter final : Nat} {lines : List Line}
    (hargs : Expr.usesAll args ⊆ uses) (h : (writeAll env args).Emits counter lines final ()) :
    Accessing (WordUse env.tree uses) lines := by
  cases args with
  | nil =>
      obtain ⟨rfl, rfl⟩ := emits_writeAll_nil h
      exact .nil
  | cons arg others =>
      obtain ⟨first, middle, second, hwrite, hrest, rfl⟩ := emits_writeAll_cons h
      rw [Expr.usesAll] at hargs
      obtain ⟨harg, hothers⟩ := List.append_subset.mp hargs
      have hsecond := accessing_writeAll others hothers hrest
      cases hwrite with
      | text _ => exact ((accessing_textLines _ _).append (accessing_writeLines _)).append hsecond
      | char _ hemits | number _ _ hemits =>
          exact ((accessing_expr arg harg hemits).append (accessing_writeLines _)).append hsecond

end

/-! ### Statements -/

theorem IndexCode.accessing {index : Option Expr} {counter final : Nat} {lines : List Line}
    (h : IndexCode env index counter lines final) (hindex : Expr.usesIn? index ⊆ uses) :
    Accessing (WordUse env.tree uses) lines := by
  cases h with
  | none => exact .nil
  | some hemits =>
      exact .plain rfl ((accessing_expr _ hindex hemits).append (.plain rfl .nil))

mutual

/-- The code of a statement accesses the words of what its names are bound to. -/
theorem accessing_statement (source : Statement) {counter final : Nat} {lines : List Line}
    (hsource : source.uses ⊆ uses) (h : (statement env source).Emits counter lines final ()) :
    Accessing (WordUse env.tree uses) lines := by
  cases source with
  | assign target index value =>
      obtain ⟨first, middle, second, id, decl, layout, hvalue, hindex, hid, hdecl, hlayout, rfl⟩ :=
        emits_assign h
      rw [Statement.uses] at hsource
      obtain ⟨huse, hrest⟩ := List.cons_subset.mp hsource
      obtain ⟨hwithin, hassigned⟩ := List.append_subset.mp hrest
      exact (accessing_expr value hassigned hvalue).append
        ((hindex.accessing hwithin).append (.word (.store huse hid hdecl hlayout) .nil))
  | compound body line =>
      rw [statement] at h
      exact accessing_statements body hsource h
  | ifThen condition consequence line =>
      obtain ⟨first, middle, second, hcondition, hconsequence, rfl⟩ := emits_ifThen h
      rw [Statement.uses] at hsource
      obtain ⟨hfirst, hsecond⟩ := List.append_subset.mp hsource
      exact (accessing_expr condition hfirst hcondition).append
        ((accessing_branchLines _).append
          ((accessing_statement consequence hsecond hconsequence).append (.plain rfl .nil)))
  | ifElse condition consequence alternative line =>
      obtain ⟨first, middle, second, middle', third, hcondition, hconsequence, halternative, rfl⟩ :=
        emits_ifElse h
      rw [Statement.uses] at hsource
      obtain ⟨hrest, hthird⟩ := List.append_subset.mp hsource
      obtain ⟨hfirst, hsecond⟩ := List.append_subset.mp hrest
      exact (accessing_expr condition hfirst hcondition).append
        ((accessing_branchLines _).append
          ((accessing_statement consequence hsecond hconsequence).append (.plain rfl (.plain rfl
            ((accessing_statement alternative hthird halternative).append (.plain rfl .nil))))))
  | whileDo condition body line =>
      obtain ⟨first, middle, second, hcondition, hbody, rfl⟩ := emits_whileDo h
      rw [Statement.uses] at hsource
      obtain ⟨hfirst, hsecond⟩ := List.append_subset.mp hsource
      exact .plain rfl ((accessing_expr condition hfirst hcondition).append
        ((accessing_branchLines _).append
          ((accessing_statement body hsecond hbody).append (.plain rfl (.plain rfl .nil)))))
  | call ref args =>
      obtain ⟨id, -, hcalls⟩ := emits_callStatement h
      rw [Statement.uses] at hsource
      have hargs := (List.cons_subset.mp hsource).2
      exact hcalls.accessing (fun hpushed => accessing_pushAll args hargs hpushed)
        (fun hwritten => accessing_writeAll args hargs hwritten)
  | empty line =>
      obtain ⟨rfl, rfl⟩ := emits_empty h
      exact .nil

theorem accessing_statements (sources : List Statement) {counter final : Nat} {lines : List Line}
    (hsources : Statement.usesAll sources ⊆ uses)
    (h : (statements env sources).Emits counter lines final ()) :
    Accessing (WordUse env.tree uses) lines := by
  cases sources with
  | nil =>
      obtain ⟨rfl, rfl⟩ := emits_statements_nil h
      exact .nil
  | cons first others =>
      obtain ⟨front, middle, back, rfl, hfirst, hothers⟩ := emits_statements_cons h
      rw [Statement.usesAll] at hsources
      obtain ⟨hsource, hrest⟩ := List.append_subset.mp hsources
      exact (accessing_statement first hsource hfirst).append
        (accessing_statements others hrest hothers)

end

end Emitted

/-! ### Bodies -/

/-- The second line of an access to the word of a declaration in the code of a block: for a
name in its statements, or for the result of the function without parameters whose body
it is. -/
inductive BlockUse (tree : Tree) (block : BlockId) (id : DeclId) (layout : Layout) : Line → Prop
  | name {body : Block} {next : Line} (hbody : tree.blocks[block]? = some body)
      (huse : WordUse tree (Statement.usesAll body.statements) id layout next) :
      BlockUse tree block id layout next
  | result {decl : Decl} {heading : Routine} (hdecl : tree.decls[id]? = some decl)
      (hkind : decl.kind = .routine heading) (hfunction : heading.isFunction = true)
      (hparams : heading.params = []) (hbody : heading.body = some block)
      (hlayout : decl.layout? = some layout) :
      BlockUse tree block id layout
        (.instruction none (.move layout.slot .eax) "Fetch return value")

theorem accessing_framedBody {env : Env} {name : String} {isFunction : Bool} {label : Label}
    {block : BlockId} {body : Block} {counter final : Nat} {lines : List Line}
    (hbody : env.tree.blocks[block]? = some body)
    (h : (framedBody env name isFunction label body).Emits counter lines final ()) :
    Accessing (BlockUse env.tree block) lines := by
  obtain ⟨code, hcode, rfl⟩ := emits_framedBody h
  have hstatements := (accessing_statements _ (List.Subset.refl _) hcode).mono
    fun _ _ _ huse => BlockUse.name hbody huse
  exact .plain rfl (hstatements.append
    ((accessing_resultLines _).append (.plain rfl (.plain rfl .nil))))

theorem BodyCode.accessing {env : Env} {id : DeclId} {decl : Decl} {heading : Routine}
    {block : BlockId} {label : Label} {counter final : Nat} {lines : List Line}
    (h : BodyCode env decl heading block label counter lines final)
    (hdecl : env.tree.decls[id]? = some decl) (hkind : decl.kind = .routine heading)
    (hblock : heading.body = some block)
    (hshared : ∀ body, env.tree.blocks[block]? = some body → body.ownsFrame block = false →
      heading.params = []) : Accessing (BlockUse env.tree block) lines := by
  cases h with
  | framed hbody _ hcode => exact accessing_framedBody hbody hcode
  | shared hbody hshares hemits =>
      obtain ⟨code, result, hcode, hresult, rfl⟩ := emits_inlineBody hemits
      have hstatements := (accessing_statements _ (List.Subset.refl _) hcode).mono
        fun _ _ _ huse => BlockUse.name hbody huse
      have hfetched : Accessing (BlockUse env.tree block) result := by
        generalize hfunction : heading.isFunction = isFunction at hresult
        cases hresult with
        | procedure => exact .nil
        | function hlayout =>
            exact .word (.result hdecl hkind hfunction (hshared _ hbody hshares) hblock hlayout)
              .nil
      exact .plain rfl (hstatements.append (hfetched.append (.plain rfl .nil)))

end MiniPascal.Code
