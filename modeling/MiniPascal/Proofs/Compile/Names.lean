import MiniPascal.Proofs.Check.Erased
import MiniPascal.Proofs.Code.Comments
import MiniPascal.Proofs.Compile.Parsed

/-!
# Names of scanned programs

A name in a text is a word, and no token stands above the first line.  So the declarations
of a program that was scanned have words for names, and stand on a line of the text if they
are not the library's.
-/

namespace MiniPascal

open MiniPascal.Assembly

/-- Spots say what the tokens say that they were read from. -/
theorem Lined.tells {part : List Located} {spots : List Spot} (h : Lined part spots)
    {named : String → Prop} {lined : Nat → Prop}
    (hname : ∀ located ∈ part, ∀ name, located.token = .name name → named name)
    (hline : ∀ located ∈ part, lined located.line) : Tells named lined spots := by
  constructor
  · intro spot hspot name htoken
    have hmem : Token.name name ∈ part.map Located.token := by
      rw [h.map_token, ← htoken]
      exact List.mem_map_of_mem hspot
    obtain ⟨located, hlocated, hsame⟩ := List.mem_map.mp hmem
    exact hname located hlocated name hsame
  · intro spot hspot node hnode
    obtain ⟨place, hplace⟩ := List.mem_iff_getElem?.mp hspot
    obtain ⟨located, hlocated, hsame⟩ := h.exists_line hplace hnode
    rw [hsame]
    exact hline located (List.mem_of_getElem? hlocated)

/-- A text that is scanned and parsed says words, and lines from the first one on. -/
theorem Outline.tells_of_parse {source : String} {tokens : List Located} {outline : Outline}
    (hscan : Compilation.scan source = .ok tokens) (hparse : (parse tokens).result = .ok outline) :
    Tells IsWord (1 ≤ ·) outline.spots := by
  have hwithin : ∀ located ∈ beforeEnd tokens, located ∈ tokens :=
    fun _ hlocated => (List.takeWhile_sublist _).subset hlocated
  apply (lined_of_parse hparse).tells
  · intro located hlocated name htoken
    obtain ⟨-, hend | ⟨chars, hdenotes, -⟩⟩ :=
      Token.Scan.denotes_of_scan hscan (hwithin located hlocated)
    · cases htoken.symm.trans hend
    · obtain ⟨hne, hchars⟩ := hdenotes.name_chars htoken
      exact ⟨hne, fun c hc => isSign_of_isWordChar (hchars c hc)⟩
  · exact fun located hlocated =>
      (Token.Scan.denotes_of_scan hscan (hwithin located hlocated)).1

/-- The declarations of a program under check have words for names. -/
theorem Check.Underway.namesAreWords {outline : Outline} {tree : Tree}
    (underway : Underway outline tree) (htold : Tells IsWord (1 ≤ ·) outline.spots) :
    tree.NamesAreWords := by
  intro id decl hdecl
  rcases underway.declared htold hdecl with ⟨hname, -⟩ | hlibrary
  · exact hname
  · have hknown : Library.decls.all (fun known => IsWord known.name) = true := by decide
    have hname : IsWord decl.erased.name :=
      of_decide_eq_true (List.all_eq_true.mp hknown _ hlibrary)
    exact hname

end MiniPascal
