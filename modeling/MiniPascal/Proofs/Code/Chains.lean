import MiniPascal.Proofs.Code.Settled
import Mathlib.Logic.Relation

/-!
# Chains of named constants

A constant that is named after another one hands the question what it stands for on to
that one.  In a checked program no constant is named after itself, however indirectly, so
each chain has an end: the declaration of a literal, or an enumeration literal.  What
stands there is what the compiler takes every constant of the chain for.
-/

namespace MiniPascal

namespace Tree

/-- The first declaration is that of a constant which is named after the second one. -/
def NamedAfter (tree : Tree) (id next : DeclId) : Prop :=
  ∃ decl ref, tree.decls[id]? = some decl ∧ decl.kind = .constant (.named ref) ∧
    ref.decl? = some next

/-- A chain ends at a declaration, with a number and, but for enumerations, a literal. -/
inductive IsEnd (tree : Tree) (id : DeclId) : Int → Option Literal → Prop
  | number {decl : Decl} {value : Int} {line : Nat} (found : tree.decls[id]? = some decl)
      (kind : decl.kind = .constant (.literal (.number value) line)) :
      IsEnd tree id value (some (.number value))
  | char {decl : Decl} {value : Char} {line : Nat} (found : tree.decls[id]? = some decl)
      (kind : decl.kind = .constant (.literal (.char value) line)) :
      IsEnd tree id value.toNat (some (.char value))
  | text {decl : Decl} {value : String} {line : Nat} (found : tree.decls[id]? = some decl)
      (kind : decl.kind = .constant (.literal (.text value) line)) :
      IsEnd tree id (Literal.codeSum value) (some (.text value))
  | enumLiteral {decl : Decl} {code : Int} (found : tree.decls[id]? = some decl)
      (kind : decl.kind = .enumLiteral code) : IsEnd tree id code none

variable {tree : Tree} {path : List DeclId} {id next other : DeclId} {decl : Decl} {value : Int}
variable {literal? : Option Literal}

theorem isEnd_of_literal {literal : Literal} {line : Nat} (found : tree.decls[id]? = some decl)
    (kind : decl.kind = .constant (.literal literal line)) :
    tree.IsEnd id literal.value (some literal) := by
  cases literal with
  | number => exact .number found kind
  | char => exact .char found kind
  | text => exact .text found kind

theorem NamedAfter.eq (h : tree.NamedAfter id next) (h' : tree.NamedAfter id other) :
    next = other := by
  obtain ⟨decl, ref, hdecl, hkind, hnext⟩ := h
  obtain ⟨decl', ref', hdecl', hkind', hother⟩ := h'
  obtain rfl := Option.some.inj (hdecl.symm.trans hdecl')
  obtain rfl := Constant.named.inj (DeclKind.constant.inj (hkind.symm.trans hkind'))
  exact Option.some.inj (hnext.symm.trans hother)

/-- No chain goes on behind its end. -/
theorem IsEnd.not_namedAfter (h : tree.IsEnd id value literal?) : ¬tree.NamedAfter id next := by
  rintro ⟨decl, ref, hdecl, hkind, -⟩
  cases h with
  | number found kind | char found kind | text found kind | enumLiteral found kind =>
      obtain rfl := Option.some.inj (found.symm.trans hdecl)
      cases kind.symm.trans hkind

namespace Denotes

/-- What a constant stands for is what stands at the end of its chain. -/
theorem exists_end (h : tree.Denotes path id value literal?) :
    ∃ last, Relation.ReflTransGen tree.NamedAfter id last ∧ tree.IsEnd last value literal? := by
  induction h with
  | enumLiteral found kind => exact ⟨_, .refl, .enumLiteral found kind⟩
  | literal found kind => exact ⟨_, .refl, isEnd_of_literal found kind⟩
  | named found kind bound rest ih =>
      obtain ⟨last, hchain, hend⟩ := ih
      exact ⟨last, .head ⟨_, _, found, kind, bound⟩ hchain, hend⟩

/-- A number that is known through a literal is that of the literal. -/
theorem value_eq {literal : Literal} (h : tree.Denotes path id value (some literal)) :
    value = literal.value := by
  generalize hsome : some literal = literal? at h
  induction h with
  | enumLiteral => cases hsome
  | literal => rw [Option.some.inj hsome]
  | named found kind bound rest ih => exact ih hsome

end Denotes

/-- A chain that has an end does not come back to where it began: each declaration has
one successor at most, so the circle would have to go on behind the end. -/
theorem not_transGen_self (hchain : Relation.ReflTransGen tree.NamedAfter id other)
    (hend : tree.IsEnd other value literal?) : ¬Relation.TransGen tree.NamedAfter id id := by
  induction hchain using Relation.ReflTransGen.head_induction_on with
  | refl =>
      intro hcycle
      obtain ⟨next, hstep, -⟩ := Relation.TransGen.head'_iff.mp hcycle
      exact hend.not_namedAfter hstep
  | head hstep hchain ih =>
      intro hcycle
      obtain ⟨next, hstep', hrest⟩ := Relation.TransGen.head'_iff.mp hcycle
      obtain rfl := hstep.eq hstep'
      exact ih (Relation.TransGen.tail' hrest hstep)

end Tree

namespace CheckedProgram

variable {outline : Outline} {skeleton : Skeleton} {tree : Tree}

/-- Every constant of a checked program stands for something. -/
theorem exists_denotes (program : CheckedProgram outline skeleton tree) {id : DeclId} {decl : Decl}
    {constant : Constant} (hdecl : tree.decls[id]? = some decl)
    (hkind : decl.kind = .constant constant) :
    ∃ path value literal?, tree.Denotes path id value literal? := by
  obtain ⟨decl', hdecl', hsettled⟩ := program.settled (Array.getElem?_eq_some_iff.mp hdecl).1
  obtain rfl := Option.some.inj (hdecl'.symm.trans hdecl)
  rw [hkind] at hsettled
  exact hsettled

/-- **Chains of constants end.**  From every constant the names lead to an end, on no
circle, and the number and the literal that the compiler finds for the constant are those
at the end. -/
theorem chain_ends (program : CheckedProgram outline skeleton tree) {id : DeclId} {decl : Decl}
    {constant : Constant} (hdecl : tree.decls[id]? = some decl)
    (hkind : decl.kind = .constant constant) :
    ¬Relation.TransGen tree.NamedAfter id id ∧
      ∃ last value literal?, Relation.ReflTransGen tree.NamedAfter id last ∧
        tree.IsEnd last value literal? ∧ tree.constantValue constant = .ok value ∧
        tree.declValue decl = .ok value ∧ tree.literal? constant = literal? := by
  obtain ⟨path, value, literal?, hdenotes⟩ := program.exists_denotes hdecl hkind
  obtain ⟨last, hchain, hend⟩ := hdenotes.exists_end
  have hvalue : tree.declValue decl = .ok value := hdenotes.declValue_eq hdecl
  have hconstant : tree.constantValue constant = .ok value := by
    rwa [Tree.declValue, Tree.valueBy, hkind] at hvalue
  have hliteral : tree.literal? constant = literal? :=
    hdenotes.literalWithin_eq (Nat.le_succ_of_le hdenotes.length_le) hdecl hkind
  exact ⟨Tree.not_transGen_self hchain hend, last, value, literal?, hchain, hend, hconstant, hvalue,
    hliteral⟩

end CheckedProgram

end MiniPascal
