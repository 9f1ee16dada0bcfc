import MiniPascal.Proofs.Grammar.Faithful
import MiniPascal.Proofs.Tree.Flatten

/-!
# Dangling elses

An `else` could belong to any conditional before it that is still open.  The reader of a
conditional takes the `else` as soon as it sees one, so none is left for the conditionals
around it: when a statement ends with an open conditional, what follows is no `else`.
-/

namespace MiniPascal

/-! ### Statements and their elses -/

/-- Whether the statement ends, through alternatives and loop bodies, in a conditional
without an `else`. -/
def Statement.endsOpen : Statement → Bool
  | .ifThen .. => true
  | .ifElse _ _ alternative _ => alternative.endsOpen
  | .whileDo _ body _ => body.endsOpen
  | .assign .. | .compound .. | .call .. | .empty _ => false

mutual

/-- Every `else` in the statement belongs to the nearest conditional before it that can
take it. -/
def Statement.ElsesNearest : Statement → Prop
  | .ifThen _ consequence _ => consequence.ElsesNearest
  | .ifElse _ consequence alternative _ =>
    consequence.endsOpen = false ∧ consequence.ElsesNearest ∧ alternative.ElsesNearest
  | .whileDo _ body _ => body.ElsesNearest
  | .compound body _ => Statement.AllElsesNearest body
  | .assign .. | .call .. | .empty _ => True

def Statement.AllElsesNearest : List Statement → Prop
  | [] => True
  | first :: others => first.ElsesNearest ∧ Statement.AllElsesNearest others

end

theorem Statement.allElsesNearest_iff {statements : List Statement} :
    Statement.AllElsesNearest statements ↔ ∀ statement ∈ statements, statement.ElsesNearest := by
  induction statements with
  | nil => exact iff_of_true trivial fun _ h => absurd h List.not_mem_nil
  | cons first others ih => rw [AllElsesNearest, ih, List.forall_mem_cons]

namespace Outline

open Token (Kind)
open Reader

/-! ### What readers give -/

namespace Reader

variable {α β : Type} {reader : Reader α} {property : α → Kind → Prop} {kind : Kind}

/-- At a token of a kind, what the reader gives has a property together with the kind of
the token that follows. -/
def GivesAt (kind : Kind) (reader : Reader α) (property : α → Kind → Prop) : Prop :=
  ∀ cursor final value, headKind cursor.rest = kind → reader.run cursor = .ok value final →
    property value (headKind final.rest)

theorem GivesAt.bind {first : Reader β} {next : β → Reader α} {between : β → Kind → Prop}
    (h : GivesAt kind first between)
    (hnext : ∀ value kind, between value kind → GivesAt kind (next value) property) :
    GivesAt kind (first >>= next) property := by
  intro cursor final result hkind hrun
  obtain ⟨value, middle, hfirst, hsecond⟩ := run_bind_eq_ok_iff.mp hrun
  have hbetween := h cursor middle value hkind hfirst
  exact hnext value _ hbetween middle final result rfl hsecond

/-- What is read before does not matter. -/
theorem givesAt_bind {first : Reader β} {next : β → Reader α}
    (hnext : ∀ value kind, GivesAt kind (next value) property) :
    GivesAt kind (first >>= next) property := by
  have hfirst : GivesAt kind first fun _ _ => True := fun _ _ _ _ _ => trivial
  exact hfirst.bind fun value kind _ => hnext value kind

theorem Still.givesAt_bind {first : Reader β} {next : β → Reader α} (h : Still first)
    (hnext : ∀ value, GivesAt kind (next value) property) :
    GivesAt kind (first >>= next) property := by
  intro cursor final result hkind hrun
  obtain ⟨value, middle, hfirst, hsecond⟩ := run_bind_eq_ok_iff.mp hrun
  rw [← h.rest_eq hfirst] at hkind
  exact hnext value middle final result hkind hsecond

theorem givesAt_pure {value : α} (h : property value kind) :
    GivesAt kind (pure value) property := by
  intro cursor final result hkind hrun
  cases hrun
  rw [hkind]
  exact h

theorem givesAt_unexpected (expected : Expectation) :
    GivesAt kind (unexpected expected) property := by
  intro cursor final value _ hrun
  cases hrun

theorem GivesAt.within (h : ∀ kind, GivesAt kind reader property) (production : Production) :
    GivesAt kind (within production reader) property := by
  apply givesAt_bind
  intro _ kind
  refine (h kind).bind fun value kind hvalue => ?_
  exact (still_record (.leave production)).givesAt_bind fun _ => givesAt_pure hvalue

/-- Bounds on the nesting that depend on the place. -/
theorem givesAt_of_depth {reader : Nat → Reader α}
    (h : ∀ depth, GivesAt kind (reader depth) property) :
    GivesAt kind (do reader ((← get).rest.length + 1)) property :=
  fun cursor final value hkind hrun => h (cursor.rest.length + 1) cursor final value hkind hrun

/-- One of two readers goes on, as a token says. -/
theorem givesAt_sees_bind {wanted : Kind} {yes no : Reader α}
    (hyes : kind = wanted → GivesAt kind yes property)
    (hno : kind ≠ wanted → GivesAt kind no property) :
    GivesAt kind (sees wanted >>= fun seen => if seen = true then yes else no) property := by
  intro cursor final value hkind hrun
  change (if (cursor.current.kind == wanted) = true then yes else no).run cursor = _ at hrun
  rw [Cursor.kind_current, hkind] at hrun
  by_cases h : kind = wanted
  · rw [if_pos (beq_iff_eq.mpr h)] at hrun
    exact hyes h cursor final value hkind hrun
  · rw [if_neg (beq_iff_eq.not.mpr h)] at hrun
    exact hno h cursor final value hkind hrun

/-- Each of the items read has what any item has. -/
theorem givesAt_many {begins : Token → Bool} {item : Reader α} {good : α → Prop}
    (h : ∀ kind, GivesAt kind item fun value _ => good value) :
    GivesAt kind (many begins item) fun values _ => ∀ value ∈ values, good value := by
  suffices hbounded : ∀ rounds kind, GivesAt kind (atMost begins item rounds)
      fun values _ => ∀ value ∈ values, good value from
    fun cursor final values hkind hrun =>
      hbounded cursor.rest.length kind cursor final values hkind hrun
  intro rounds
  induction rounds with
  | zero => exact fun _ => givesAt_pure fun _ hvalue => absurd hvalue List.not_mem_nil
  | succ rounds ih =>
      intro kind
      apply givesAt_bind
      intro token kind
      split
      · refine (h kind).bind fun first kind hfirst => ?_
        refine (ih kind).bind fun others kind hothers => ?_
        exact givesAt_pure (List.forall_mem_cons.mpr ⟨hfirst, hothers⟩)
      · exact givesAt_pure fun _ hvalue => absurd hvalue List.not_mem_nil

theorem givesAt_separated {symbol : Symbol} {item : Reader α} {good : α → Prop}
    (h : ∀ kind, GivesAt kind item fun value _ => good value) :
    GivesAt kind (separated symbol item) fun values _ => ∀ value ∈ values, good value := by
  refine (h kind).bind fun first kind hfirst => ?_
  refine (givesAt_many fun _ => givesAt_bind fun _ => h).bind fun others kind hothers => ?_
  exact givesAt_pure (List.forall_mem_cons.mpr ⟨hfirst, hothers⟩)

end Reader

/-! ### Statements -/

/-- The statement's elses are with the nearest conditionals, and it leaves none to be taken
to the token that follows it. -/
def Settled (statement : Statement) (following : Kind) : Prop :=
  statement.ElsesNearest ∧ (statement.endsOpen = true → following ≠ .keyword .else_)

section

variable {statement : Reader Statement} {kind : Kind}

theorem givesAt_statementListOf (h : ∀ kind, GivesAt kind statement Settled) :
    GivesAt kind (statementListOf statement)
      fun statements _ => Statement.AllElsesNearest statements := by
  apply GivesAt.within
  intro kind cursor final statements hkind hrun
  have hnearest : ∀ kind, GivesAt kind statement fun value _ => value.ElsesNearest :=
    fun kind cursor final value hkind hrun => (h kind cursor final value hkind hrun).1
  rw [Statement.allElsesNearest_iff]
  exact givesAt_separated hnearest cursor final statements hkind hrun

theorem givesAt_compoundOf (h : ∀ kind, GivesAt kind statement Settled) :
    GivesAt kind (compoundOf statement) Settled := by
  apply GivesAt.within
  intro kind
  apply givesAt_bind
  intro line kind
  apply givesAt_bind
  intro _ kind
  refine (givesAt_statementListOf h).bind fun body kind hbody => ?_
  apply givesAt_bind
  intro _ kind
  exact givesAt_pure ⟨hbody, nofun⟩

/-- The conditional takes the `else` that follows its consequence, if one does. -/
theorem givesAt_ifOf (h : ∀ kind, GivesAt kind statement Settled) :
    GivesAt kind (ifOf statement) Settled := by
  apply GivesAt.within
  intro kind
  apply givesAt_bind
  intro line kind
  apply givesAt_bind
  intro _ kind
  apply givesAt_bind
  intro condition kind
  apply givesAt_bind
  intro _ kind
  refine (h kind).bind fun consequence kind ⟨hnearest, hopen⟩ => ?_
  apply givesAt_sees_bind
  · intro helse
    have hclosed : consequence.endsOpen = false :=
      Bool.eq_false_iff.mpr fun hends => hopen hends helse
    apply givesAt_bind
    intro _ kind
    refine (h kind).bind fun alternative kind ⟨hnearest', hopen'⟩ => ?_
    exact givesAt_pure ⟨⟨hclosed, hnearest, hnearest'⟩, hopen'⟩
  · exact fun helse => givesAt_pure ⟨hnearest, fun _ => helse⟩

theorem givesAt_whileOf (h : ∀ kind, GivesAt kind statement Settled) :
    GivesAt kind (whileOf statement) Settled := by
  apply GivesAt.within
  intro kind
  apply givesAt_bind
  intro line kind
  apply givesAt_bind
  intro _ kind
  apply givesAt_bind
  intro condition kind
  apply givesAt_bind
  intro _ kind
  refine (h kind).bind fun body kind hbody => ?_
  exact givesAt_pure hbody

end

theorem givesAt_assignment {kind : Kind} : GivesAt kind assignment Settled := by
  apply GivesAt.within
  intro kind
  apply givesAt_bind
  rintro ⟨target, index⟩ kind
  apply givesAt_bind
  intro _ kind
  apply givesAt_bind
  intro value kind
  exact givesAt_pure ⟨trivial, nofun⟩

theorem givesAt_procedureCall {kind : Kind} : GivesAt kind procedureCall Settled := by
  apply GivesAt.within
  intro kind
  apply givesAt_bind
  intro ref kind
  apply givesAt_sees_bind
  · intro _
    apply givesAt_bind
    intro args kind
    exact givesAt_pure ⟨trivial, nofun⟩
  · exact fun _ => givesAt_pure ⟨trivial, nofun⟩

theorem givesAt_statementWithin (depth : Nat) (kind : Kind) :
    GivesAt kind (statementWithin depth) Settled := by
  induction depth generalizing kind with
  | zero => exact givesAt_unexpected _
  | succ depth ih =>
      apply GivesAt.within
      intro kind
      apply givesAt_bind
      intro token kind
      split
      · apply givesAt_bind
        intro next kind
        split
        · exact givesAt_assignment
        · exact givesAt_procedureCall
      · exact givesAt_compoundOf ih
      · exact givesAt_ifOf ih
      · exact givesAt_whileOf ih
      · exact givesAt_bind fun line kind => givesAt_pure ⟨trivial, nofun⟩

theorem givesAt_statementList {kind : Kind} : GivesAt kind statementList
    fun statements _ => Statement.AllElsesNearest statements :=
  givesAt_of_depth fun depth => givesAt_statementListOf (givesAt_statementWithin depth)

/-! ### Programs -/

/-- In all lists of statements, every `else` belongs to the nearest conditional. -/
def AllSettled (bodies : List (List Statement)) : Prop :=
  ∀ statements ∈ bodies, Statement.AllElsesNearest statements

section

variable {block : Reader Block} {kind : Kind}

theorem givesAt_procedureOf
    (h : ∀ kind, GivesAt kind block fun block _ => AllSettled block.bodies) :
    GivesAt kind (procedureOf block) fun part _ => AllSettled part.bodies := by
  apply GivesAt.within
  intro kind
  apply givesAt_bind
  intro line kind
  apply givesAt_bind
  intro _ kind
  apply givesAt_bind
  intro name kind
  apply givesAt_bind
  intro params kind
  apply givesAt_bind
  intro _ kind
  refine (h kind).bind fun body kind hbody => ?_
  apply givesAt_bind
  intro _ kind
  exact givesAt_pure hbody

theorem givesAt_functionOf (h : ∀ kind, GivesAt kind block fun block _ => AllSettled block.bodies) :
    GivesAt kind (functionOf block) fun part _ => AllSettled part.bodies := by
  apply GivesAt.within
  intro kind
  apply givesAt_bind
  intro line kind
  apply givesAt_bind
  intro _ kind
  apply givesAt_bind
  intro name kind
  apply givesAt_bind
  intro params kind
  apply givesAt_bind
  intro _ kind
  apply givesAt_bind
  intro result kind
  apply givesAt_bind
  intro _ kind
  refine (h kind).bind fun body kind hbody => ?_
  apply givesAt_bind
  intro _ kind
  exact givesAt_pure hbody

theorem givesAt_partOf (h : ∀ kind, GivesAt kind block fun block _ => AllSettled block.bodies) :
    GivesAt kind (partOf block) fun part _ => AllSettled part.bodies := by
  have hnone : AllSettled [] := fun _ hmem => absurd hmem List.not_mem_nil
  apply givesAt_bind
  intro token kind
  split
  · exact givesAt_bind fun decls kind => givesAt_pure hnone
  · exact givesAt_bind fun decls kind => givesAt_pure hnone
  · exact givesAt_bind fun decls kind => givesAt_pure hnone
  · exact givesAt_functionOf h
  · exact givesAt_procedureOf h

end

theorem givesAt_blockWithin (depth : Nat) (kind : Kind) :
    GivesAt kind (blockWithin depth) fun block _ => AllSettled block.bodies := by
  induction depth generalizing kind with
  | zero => exact givesAt_unexpected _
  | succ depth ih =>
      apply GivesAt.within
      intro kind
      apply givesAt_bind
      intro line kind
      refine (givesAt_many fun _ => givesAt_partOf ih).bind fun parts kind hparts => ?_
      apply givesAt_bind
      intro _ kind
      refine givesAt_statementList.bind fun statements kind hstatements => ?_
      apply givesAt_bind
      intro _ kind
      apply givesAt_pure
      intro body hbody
      rw [Block.bodies, List.mem_cons, partsBodies_eq, List.mem_flatMap] at hbody
      rcases hbody with rfl | ⟨part, hpart, hbody⟩
      · exact hstatements
      · exact hparts part hpart body hbody

theorem givesAt_program {kind : Kind} :
    GivesAt kind program fun outline _ => AllSettled outline.body.bodies := by
  apply GivesAt.within
  intro kind
  apply givesAt_bind
  intro line kind
  apply givesAt_bind
  intro _ kind
  apply givesAt_bind
  intro name kind
  apply givesAt_bind
  intro _ kind
  apply givesAt_bind
  intro _ kind
  refine (givesAt_of_depth fun depth => givesAt_blockWithin depth kind).bind ?_
  intro body kind hbody
  apply givesAt_bind
  intro _ kind
  apply givesAt_bind
  intro token kind
  split
  · exact givesAt_pure hbody
  · exact givesAt_unexpected _

end Outline

end MiniPascal
