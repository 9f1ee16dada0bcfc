import MiniPascal.Proofs.Assembly.Words
import MiniPascal.Proofs.Code.Vocabulary

/-!
# Comments in code

Code is commented with phrases and with the names of declarations.  If names are words, no
comment ends in a blank, so all lines of a program's code can be read back.
-/

namespace MiniPascal

open MiniPascal.Assembly
open MiniPascal.Text

namespace Assembly

/-! ### Comments with names -/

theorem isComment_of_isWord {text : String} (h : IsWord text) : IsComment text :=
  ⟨h.lineFeed_notMem, h.isTrimmed⟩

/-- A comment that ends in a word. -/
theorem isComment_append_word {front name : String} (h : '\n' ∉ front.toList)
    (hname : IsWord name) : IsComment (front ++ name) := by
  rw [IsComment, String.toList_append]
  exact ⟨fun hmem => (List.mem_append.mp hmem).elim h hname.lineFeed_notMem,
    hname.isTrimmed.append hname.1 _⟩

theorem isComment_assigned {name : String} (h : IsWord name) : IsComment (name ++ " :=") := by
  have hback : IsComment " :=" := by decide
  rw [IsComment, String.toList_append]
  exact ⟨fun hmem => (List.mem_append.mp hmem).elim h.lineFeed_notMem hback.1,
    hback.2.append (by decide) _⟩

end Assembly

/-- The declarations of a tree have words for names. -/
def Tree.NamesAreWords (tree : Tree) : Prop :=
  ∀ (id : DeclId) (decl : Decl), tree.decls[id]? = some decl → IsWord decl.name

namespace Code

variable {tree : Tree} {tokens : List Token} {title : String}

theorem CodeName.isWord {name : String} (h : CodeName tree title name)
    (hnames : tree.NamesAreWords) (htitle : IsWord title) : IsWord name := by
  cases h with
  | title => exact htitle
  | declared hdecl => exact hnames _ _ hdecl

theorem CodeComment.isComment {comment : String} (h : CodeComment tree title comment)
    (hnames : tree.NamesAreWords) (htitle : IsWord title) : IsComment comment := by
  have hphrases : ∀ text ∈ phrases, IsComment text := by decide
  cases h with
  | phrase hphrase => exact hphrases comment hphrase
  | name hname => exact isComment_of_isWord (hname.isWord hnames htitle)
  | assigned hname => exact isComment_assigned (hname.isWord hnames htitle)
  | start hname | finish hname =>
      exact isComment_append_word (by decide) (hname.isWord hnames htitle)

/-- The fixed parts of a line can be read back. -/
theorem CodeLine.neat {line : Line} (h : CodeLine tree tokens title line)
    (hnames : tree.NamesAreWords) (htitle : IsWord title) : line.Neat := by
  have hdirectives : ∀ order ∈ directives, IsDirective order.text := by decide
  cases h with
  | directive horder => exact hdirectives _ horder
  | label | datum => trivial
  | plain _ hcomment | numbered _ _ hcomment => exact hcomment.isComment hnames htitle

end Code

end MiniPascal
