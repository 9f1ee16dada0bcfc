import MiniPascal.Proofs.Compile.Parsed

/-!
# Lines of the nodes of parsed programs

The nodes of a tree stand beside their first tokens.  A node reports the line of its first
token, except for a factor in parentheses: it has no line of its own and reports that of
its inside, which is the line of the token after the parenthesis.
-/

namespace MiniPascal

theorem Outline.getElem?_of_beforeEnd {tokens : List Located} {place : Nat} {located : Located}
    (h : (beforeEnd tokens)[place]? = some located) : tokens[place]? = some located := by
  have hplace : place < (beforeEnd tokens).length := (List.getElem?_eq_some_iff.mp h).1
  have hsplit : tokens = beforeEnd tokens ++ fromEnd tokens :=
    List.takeWhile_append_dropWhile.symm
  rw [hsplit, List.getElem?_append_left hplace, h]

/-- **Nodes report the lines of their first tokens.**  A program that parses has a tree with
exactly the tokens before the end of the file.  Every node that begins with one of them
reports the line of that token or, if it is a factor in parentheses, of the next token. -/
theorem node_lines_of_parse {tokens : List Located} {context final : Context} {tree : Tree}
    (h : (Compilation.parse tokens).run context = .ok tree final) :
    tree.spots.map Spot.token = (Outline.beforeEnd tokens).map Located.token ∧
      ∀ (place : Nat) (spot : Spot) (node : NodeLine), tree.spots[place]? = some spot →
        node ∈ spot.nodes →
          (node.kind ≠ .group → ∃ first, tokens[place]? = some first ∧ node.line = first.line) ∧
          (node.kind = .group →
            ∃ second, tokens[place + 1]? = some second ∧ node.line = second.line) := by
  obtain ⟨outline, hparse, rfl⟩ := Compilation.exists_outline_of_parse h
  have hlined := Outline.lined_of_parse hparse
  rw [outline.spots_ofOutline]
  refine ⟨hlined.map_token.symm, fun place spot node hspot hnode => ?_⟩
  obtain ⟨located, hlocated, hline⟩ := hlined.exists_line hspot hnode
  have hfound := Outline.getElem?_of_beforeEnd hlocated
  constructor
  · intro hkind
    rw [NodeKind.delay_eq_zero hkind] at hfound
    exact ⟨located, hfound, hline⟩
  · intro hkind
    rw [hkind] at hfound
    exact ⟨located, hfound, hline⟩

/-- A program with nodes of all kinds, on two lines. -/
theorem node_lines_of_parse_kinds :
    ∃ tokens tree final,
      Compilation.scan "program p; const c = 1; type t = array [1..2] of (on, off);
        function f(x: integer): integer; begin if not (x < c) then f := +x * f(x - 1) end;
        var v: t; begin v[1] := on; ; write(f(3) div (-1)) end." = .ok tokens ∧
      (Compilation.parse tokens).run (.fresh false false) = .ok tree final ∧
      tree.spots.map Spot.token = (Outline.beforeEnd tokens).map Located.token ∧
      ∀ (place : Nat) (spot : Spot) (node : NodeLine), tree.spots[place]? = some spot →
        node ∈ spot.nodes →
          (node.kind ≠ .group → ∃ first, tokens[place]? = some first ∧ node.line = first.line) ∧
          (node.kind = .group →
            ∃ second, tokens[place + 1]? = some second ∧ node.line = second.line) := by
  have hok : Compilation.passes (fun tokens => Compilation.endsWith (fun _ _ => true)
        ((Compilation.parse tokens).run (.fresh false false)))
        (Compilation.scan "program p; const c = 1; type t = array [1..2] of (on, off);
        function f(x: integer): integer; begin if not (x < c) then f := +x * f(x - 1) end;
        var v: t; begin v[1] := on; ; write(f(3) div (-1)) end.") = true := by
    decide +kernel
  obtain ⟨tokens, hscan, htokens⟩ := Compilation.exists_of_passes hok
  obtain ⟨tree, final, hparse, -⟩ := Compilation.exists_of_endsWith htokens
  exact ⟨tokens, tree, final, hscan, hparse, node_lines_of_parse hparse⟩

/-- A factor in parentheses whose opening one stands on an earlier line than its inside does
not report the line of its first token. -/
theorem group_reports_later_line :
    ∃ tokens tree final, Compilation.scan
        "program p; var x: integer; begin x := (\n1) end." = .ok tokens ∧
      (Compilation.parse tokens).run (.fresh false false) = .ok tree final ∧
      ∃ (place : Nat) (spot : Spot) (node : NodeLine) (first : Located),
        tree.spots[place]? = some spot ∧ node ∈ spot.nodes ∧ tokens[place]? = some first ∧
          node.line ≠ first.line := by
  have hok : Compilation.passes (fun tokens => Compilation.endsWith (fun tree _ =>
        (tree.spots.zip tokens).any fun pair => pair.1.nodes.any (·.line != pair.2.line))
        ((Compilation.parse tokens).run (.fresh false false)))
        (Compilation.scan "program p; var x: integer; begin x := (\n1) end.") = true := by
    decide +kernel
  obtain ⟨tokens, hscan, htokens⟩ := Compilation.exists_of_passes hok
  obtain ⟨tree, final, hparse, htest⟩ := Compilation.exists_of_endsWith htokens
  obtain ⟨⟨spot, first⟩, hpair, hnodes⟩ := List.any_eq_true.mp htest
  obtain ⟨node, hnode, hline⟩ := List.any_eq_true.mp hnodes
  obtain ⟨place, hplace⟩ := List.mem_iff_getElem?.mp hpair
  obtain ⟨hspot, hfirst⟩ := List.getElem?_zip_eq_some.mp hplace
  exact ⟨tokens, tree, final, hscan, hparse, place, spot, node, first, hspot, hnode, hfirst,
    bne_iff_ne.mp hline⟩

end MiniPascal
