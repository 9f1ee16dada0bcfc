import MiniPascal.Code.Value
import Mathlib.Data.List.Nodup
import Mathlib.Data.List.Perm.Subperm

/-!
# What constants stand for

A constant is a number, a name of another constant, or an enumeration literal.
Where the names lead to an end at all, they pass no declaration twice, so the
number of declarations is room enough to follow them.
-/

namespace MiniPascal

open MiniPascal.Code

/-- A constant stands for a number, and for a literal unless it ends at an
enumeration; the path holds the declarations on the way there. -/
inductive Tree.Denotes (tree : Tree) : List DeclId → DeclId → Int → Option Literal → Prop
  | enumLiteral {id : DeclId} {decl : Decl} {code : Int} (found : tree.decls[id]? = some decl)
      (kind : decl.kind = .enumLiteral code) : Denotes tree [id] id code none
  | literal {id : DeclId} {decl : Decl} {value : Literal} {line : Nat}
      (found : tree.decls[id]? = some decl) (kind : decl.kind = .constant (.literal value line)) :
      Denotes tree [id] id value.value (some value)
  | named {id next : DeclId} {decl : Decl} {ref : NameRef} {path : List DeclId} {value : Int}
      {literal? : Option Literal} (found : tree.decls[id]? = some decl)
      (kind : decl.kind = .constant (.named ref)) (bound : ref.decl? = some next)
      (rest : Denotes tree path next value literal?) :
      Denotes tree (id :: path) id value literal?

namespace Tree.Denotes

variable {tree : Tree} {path path' : List DeclId} {id : DeclId} {value value' : Int}
variable {literal? literal?' : Option Literal} {decl : Decl}

theorem unique (h : tree.Denotes path id value literal?)
    (h' : tree.Denotes path' id value' literal?') :
    path = path' ∧ value = value' ∧ literal? = literal?' := by
  induction h generalizing path' with
  | enumLiteral found kind =>
      cases h' with
      | enumLiteral found' kind' =>
          obtain rfl := Option.some.inj (found.symm.trans found')
          obtain rfl := DeclKind.enumLiteral.inj (kind.symm.trans kind')
          exact ⟨rfl, rfl, rfl⟩
      | literal found' kind' | named found' kind' =>
          obtain rfl := Option.some.inj (found.symm.trans found')
          cases kind.symm.trans kind'
  | literal found kind =>
      cases h' with
      | literal found' kind' =>
          obtain rfl := Option.some.inj (found.symm.trans found')
          obtain ⟨rfl, -⟩ := Constant.literal.inj (DeclKind.constant.inj (kind.symm.trans kind'))
          exact ⟨rfl, rfl, rfl⟩
      | enumLiteral found' kind' | named found' kind' =>
          obtain rfl := Option.some.inj (found.symm.trans found')
          cases kind.symm.trans kind'
  | named found kind bound rest ih =>
      cases h' with
      | named found' kind' bound' rest' =>
          obtain rfl := Option.some.inj (found.symm.trans found')
          obtain rfl := Constant.named.inj (DeclKind.constant.inj (kind.symm.trans kind'))
          obtain rfl := Option.some.inj (bound.symm.trans bound')
          obtain ⟨rfl, rfl, rfl⟩ := ih rest'
          exact ⟨rfl, rfl, rfl⟩
      | enumLiteral found' kind' | literal found' kind' =>
          obtain rfl := Option.some.inj (found.symm.trans found')
          cases kind.symm.trans kind'

theorem exists_decl (h : tree.Denotes path id value literal?) :
    ∃ decl, tree.decls[id]? = some decl := by
  cases h with
  | enumLiteral found | literal found | named found => exact ⟨_, found⟩

theorem kind (h : tree.Denotes path id value literal?) (found : tree.decls[id]? = some decl) :
    (∃ constant, decl.kind = .constant constant) ∨ ∃ code, decl.kind = .enumLiteral code := by
  cases h with
  | enumLiteral found' kind =>
      obtain rfl := Option.some.inj (found.symm.trans found')
      exact .inr ⟨_, kind⟩
  | literal found' kind | named found' kind =>
      obtain rfl := Option.some.inj (found.symm.trans found')
      exact .inl ⟨_, kind⟩

/-- From every declaration on the way, the rest of the way leads to the same end. -/
theorem exists_suffix (h : tree.Denotes path id value literal?) {other : DeclId}
    (hmem : other ∈ path) : ∃ rest, rest <:+ path ∧ tree.Denotes rest other value literal? := by
  induction h with
  | enumLiteral found kind =>
      obtain rfl := List.mem_singleton.mp hmem
      exact ⟨_, List.suffix_rfl, .enumLiteral found kind⟩
  | literal found kind =>
      obtain rfl := List.mem_singleton.mp hmem
      exact ⟨_, List.suffix_rfl, .literal found kind⟩
  | named found kind bound rest ih =>
      rcases List.mem_cons.mp hmem with rfl | hmem
      · exact ⟨_, List.suffix_rfl, .named found kind bound rest⟩
      · obtain ⟨rest, hsuffix, hrest⟩ := ih hmem
        exact ⟨rest, hsuffix.trans (List.suffix_cons _ _), hrest⟩

/-- No constant is defined by itself. -/
theorem nodup (h : tree.Denotes path id value literal?) : path.Nodup := by
  induction h with
  | enumLiteral | literal => exact List.nodup_singleton _
  | @named id _ _ _ path _ _ found kind bound rest ih =>
      refine List.nodup_cons.mpr ⟨fun hmem => ?_, ih⟩
      obtain ⟨again, hsuffix, hagain⟩ := rest.exists_suffix hmem
      -- the way from the constant would be longer than itself
      obtain ⟨hpath, -⟩ := hagain.unique (.named found kind bound rest)
      have hle := hsuffix.length_le
      rw [hpath, List.length_cons] at hle
      exact absurd hle (Nat.not_succ_le_self _)

theorem length_le (h : tree.Denotes path id value literal?) : path.length ≤ tree.decls.size := by
  have hsubset : path ⊆ List.range tree.decls.size := by
    intro other hmem
    obtain ⟨_, -, hrest⟩ := h.exists_suffix hmem
    obtain ⟨_, hdecl⟩ := hrest.exists_decl
    exact List.mem_range.mpr (Array.getElem?_eq_some_iff.mp hdecl).1
  have hle := (List.Nodup.subperm h.nodup hsubset).length_le
  rwa [List.length_range] at hle

/-! ### Following the names -/

theorem valueBy_eq (h : tree.Denotes path id value literal?) {depth : Nat}
    (hdepth : path.length ≤ depth) (found : tree.decls[id]? = some decl) :
    valueBy (tree.constantValueWithin depth) decl = .ok value := by
  induction h generalizing decl depth with
  | enumLiteral found' kind =>
      obtain rfl := Option.some.inj (found'.symm.trans found)
      rw [valueBy, kind]
  | literal found' kind =>
      obtain rfl := Option.some.inj (found'.symm.trans found)
      rw [valueBy, kind]
      simp only [constantValueWithin]
  | @named _ next _ ref path _ _ found' kind bound rest ih =>
      obtain rfl := Option.some.inj (found'.symm.trans found)
      obtain ⟨depth, rfl⟩ := Nat.exists_eq_succ_of_ne_zero (Nat.ne_zero_of_lt hdepth)
      obtain ⟨target, hnext⟩ := rest.exists_decl
      have hresolved : ref.resolved = .ok next := by
        rw [NameRef.resolved, bound]
      have hdeclared : tree.declared next = .ok target := by
        rw [Tree.declared, hnext]
      rw [valueBy, kind]
      simp only [constantValueWithin, hresolved]
      change (tree.declared next >>= valueBy (tree.constantValueWithin depth)) = _
      rw [hdeclared]
      exact ih (Nat.le_of_succ_le_succ hdepth) hnext

/-- The compiler finds the number that a constant stands for. -/
theorem declValue_eq (h : tree.Denotes path id value literal?)
    (found : tree.decls[id]? = some decl) : tree.declValue decl = .ok value :=
  h.valueBy_eq (Nat.le_succ_of_le h.length_le) found

theorem literalWithin_eq (h : tree.Denotes path id value literal?) {depth : Nat}
    (hdepth : path.length ≤ depth) (found : tree.decls[id]? = some decl) {constant : Constant}
    (hkind : decl.kind = .constant constant) : tree.literalWithin depth constant = literal? := by
  induction h generalizing decl depth constant with
  | enumLiteral found' kind =>
      obtain rfl := Option.some.inj (found'.symm.trans found)
      cases kind.symm.trans hkind
  | literal found' kind =>
      obtain rfl := Option.some.inj (found'.symm.trans found)
      obtain rfl := DeclKind.constant.inj (kind.symm.trans hkind)
      rw [literalWithin]
  | @named _ next _ ref path _ _ found' kind bound rest ih =>
      obtain rfl := Option.some.inj (found'.symm.trans found)
      obtain rfl := DeclKind.constant.inj (kind.symm.trans hkind)
      obtain ⟨depth, rfl⟩ := Nat.exists_eq_succ_of_ne_zero (Nat.ne_zero_of_lt hdepth)
      obtain ⟨target, hnext⟩ := rest.exists_decl
      simp only [literalWithin, bound, Option.bind_eq_bind, Option.bind_some, hnext]
      cases rest with
      | enumLiteral found'' kind'' =>
          obtain heq := Option.some.inj (found''.symm.trans hnext)
          rw [← heq, kind'']
      | literal found'' kind'' =>
          obtain heq := Option.some.inj (found''.symm.trans hnext)
          rw [← heq, kind'']
          exact ih (Nat.le_of_succ_le_succ hdepth) found'' kind''
      | named found'' kind'' =>
          obtain heq := Option.some.inj (found''.symm.trans hnext)
          rw [← heq, kind'']
          exact ih (Nat.le_of_succ_le_succ hdepth) found'' kind''

/-- An argument that is the name of a constant counts as the literal behind it. -/
theorem argumentLiteral?_eq (h : tree.Denotes path id value literal?) {ref : NameRef}
    (bound : ref.decl? = some id) : tree.argumentLiteral? (.name ref) = literal? := by
  obtain ⟨decl, found⟩ := h.exists_decl
  simp only [argumentLiteral?, bound, Option.bind_eq_bind, Option.bind_some, found]
  have hfollowed := fun constant => @literalWithin_eq tree path id value literal? decl h
    (tree.decls.size + 1) (Nat.le_succ_of_le h.length_le) found constant
  cases h with
  | enumLiteral found' kind =>
      rw [← Option.some.inj (found'.symm.trans found), kind]
  | literal found' kind =>
      obtain heq := Option.some.inj (found'.symm.trans found)
      rw [← heq, kind]
      exact hfollowed _ (heq ▸ kind)
  | named found' kind =>
      obtain heq := Option.some.inj (found'.symm.trans found)
      rw [← heq, kind]
      exact hfollowed _ (heq ▸ kind)

end Tree.Denotes

end MiniPascal
