import MiniPascal.Proofs.Grammar.Loops
import MiniPascal.Proofs.Tree.Spots

/-!
# Readers that keep their tokens and lines

A reader keeps its tokens if what it gives has, as its spots, exactly those tokens that the
reader took off, values and all, and if every node that begins with one of them reports its
line.  While a sequence of readers is under way, the spots of the tokens taken so far stand
in front of the tokens that are left.
-/

namespace MiniPascal

/-! ### Lines of nodes -/

/-- At some tokens, the node reports the line of the token that stands its delay after the
first one. -/
def NodeLine.Reports (node : NodeLine) (part : List Located) : Prop :=
  ∃ located, part[node.kind.delay]? = some located ∧ node.line = located.line

/-- The tokens are those of the spots, and all nodes beside them report their lines. -/
inductive Lined : List Located → List Spot → Prop
  | nil : Lined [] []
  | cons {located : Located} {rest : List Located} {spot : Spot} {spots : List Spot}
      (token : located.token = spot.token)
      (lines : ∀ node ∈ spot.nodes, node.Reports (located :: rest)) (tail : Lined rest spots) :
      Lined (located :: rest) (spot :: spots)

theorem NodeLine.Reports.append {node : NodeLine} {part : List Located} (h : node.Reports part)
    (back : List Located) : node.Reports (part ++ back) := by
  obtain ⟨located, hlocated, hline⟩ := h
  have hlt := (List.getElem?_eq_some_iff.mp hlocated).1
  exact ⟨located, by rw [List.getElem?_append_left hlt, hlocated], hline⟩

namespace Lined

variable {part part' : List Located} {spots spots' : List Spot}

theorem append (h : Lined part spots) (h' : Lined part' spots') :
    Lined (part ++ part') (spots ++ spots') := by
  induction h with
  | nil => exact h'
  | cons token lines _ ih => exact .cons token (fun node hnode => (lines node hnode).append _) ih

theorem bare (located : Located) : Lined [located] [.bare located.token] :=
  .cons rfl (fun _ hnode => absurd hnode List.not_mem_nil) .nil

theorem eq_nil (h : Lined part []) : part = [] := by
  cases h
  rfl

theorem map_token (h : Lined part spots) :
    part.map Located.token = spots.map Spot.token := by
  induction h with
  | nil => rfl
  | cons token _ _ ih => rw [List.map_cons, List.map_cons, token, ih]

/-- A node is put beside the first token, if there is one. -/
theorem nodeAt (h : Lined part spots) {kind : NodeKind} {line : Nat}
    (hreports : part ≠ [] → NodeLine.Reports ⟨kind, line⟩ part) :
    Lined part (nodeAt kind line spots) := by
  cases h with
  | nil => exact .nil
  | cons token lines tail =>
      exact .cons token (List.forall_mem_cons.mpr ⟨hreports nofun, lines⟩) tail

/-- Each node beside a token reports its line, or that of the token after it. -/
theorem exists_line (h : Lined part spots) {place : Nat} {spot : Spot}
    (hspot : spots[place]? = some spot) {node : NodeLine} (hnode : node ∈ spot.nodes) :
    ∃ located, part[place + node.kind.delay]? = some located ∧ node.line = located.line := by
  induction h generalizing place with
  | nil => cases hspot
  | @cons located rest first spots token lines _ ih =>
      cases place with
      | zero =>
          obtain rfl := Option.some.inj hspot
          rw [Nat.zero_add]
          exact lines node hnode
      | succ place =>
          obtain ⟨found, hfound, hline⟩ := ih hspot
          refine ⟨found, ?_, hline⟩
          rw [Nat.add_right_comm, List.getElem?_cons_succ]
          exact hfound

end Lined

namespace Outline.Reader

variable {α β : Type}

/-! ### Places under way -/

/-- Since a place with some tokens left, whose first one has the given line, tokens with
the given spots have been taken. -/
structure Since (start : List Located) (line : Nat) (taken : List Spot) (cursor : Cursor) :
    Prop where
  placed : ∀ first ∈ cursor.rest.head?, cursor.line = first.line
  split : ∃ part, start = part ++ cursor.rest ∧ Lined part taken ∧
    (part = [] → cursor.line = line) ∧ ∀ first ∈ part.head?, first.line = line

namespace Since

variable {start : List Located} {line : Nat} {taken taken' : List Spot} {cursor final : Cursor}

theorem refl (placed : ∀ first ∈ cursor.rest.head?, cursor.line = first.line) :
    Since cursor.rest cursor.line [] cursor where
  placed := placed
  split := ⟨[], rfl, .nil, fun _ => rfl, nofun⟩

theorem trans (since : Since start line taken cursor)
    (next : Since cursor.rest cursor.line taken' final) :
    Since start line (taken ++ taken') final where
  placed := next.placed
  split := by
    obtain ⟨part, hsplit, hlined, hline, hfirst⟩ := since.split
    obtain ⟨part', hsplit', hlined', hline', hfirst'⟩ := next.split
    refine ⟨part ++ part', ?_, hlined.append hlined', ?_, ?_⟩
    · rw [hsplit, hsplit', List.append_assoc]
    · intro hnil
      obtain ⟨hpart, hpart'⟩ := List.append_eq_nil_iff.mp hnil
      exact (hline' hpart').trans (hline hpart)
    · intro first hmem
      cases part with
      | nil => exact (hfirst' first hmem).trans (hline rfl)
      | cons head rest => exact hfirst first hmem

/-- As long as nothing is taken, the line is that of the place. -/
theorem line_eq (since : Since start line [] cursor) : cursor.line = line := by
  obtain ⟨part, -, hlined, hline, -⟩ := since.split
  exact hline hlined.eq_nil

/-- Only what is left and the current line count. -/
theorem congr (since : Since start line taken cursor) (hrest : final.rest = cursor.rest)
    (hline : final.line = cursor.line) : Since start line taken final where
  placed := by
    rw [hrest, hline]
    exact since.placed
  split := by
    rw [hrest, hline]
    exact since.split

/-- A node that reports the line of its first token. -/
theorem nodeAt (since : Since start line taken cursor) {kind : NodeKind} (hkind : kind.delay = 0) :
    Since start line (nodeAt kind line taken) cursor where
  placed := since.placed
  split := by
    obtain ⟨part, hsplit, hlined, hline, hfirst⟩ := since.split
    refine ⟨part, hsplit, hlined.nodeAt fun hne => ?_, hline, hfirst⟩
    obtain ⟨first, rest, rfl⟩ := List.exists_cons_of_ne_nil hne
    refine ⟨first, ?_, (hfirst first rfl).symm⟩
    rw [hkind]
    rfl

/-- A node that begins with a token and reports the line of the one after it. -/
theorem group {token : Token} (since : Since start line [.bare token] cursor)
    (next : Since cursor.rest cursor.line taken final) (htaken : taken ≠ []) :
    Since start line (MiniPascal.nodeAt .group cursor.line (.bare token :: taken)) final where
  placed := next.placed
  split := by
    obtain ⟨part, hsplit, hlined, -, hfirst⟩ := since.split
    obtain ⟨part', hsplit', hlined', -, hfirst'⟩ := next.split
    refine ⟨part ++ part', ?_, (hlined.append hlined').nodeAt fun _ => ?_, ?_, ?_⟩
    · rw [hsplit, hsplit', List.append_assoc]
    · -- the second token is the first one after the bare one
      cases hlined with
      | cons _ _ tail =>
          cases tail
          cases hlined' with
          | nil => exact absurd rfl htaken
          | cons => exact ⟨_, rfl, (hfirst' _ rfl).symm⟩
    · cases hlined
      exact nofun
    · cases hlined
      exact hfirst

theorem map_token_eq (since : Since start line taken cursor) :
    start.map Located.token = taken.map Spot.token ++ cursor.rest.map Located.token := by
  obtain ⟨part, rfl, hlined, -⟩ := since.split
  rw [List.map_append, hlined.map_token]

/-- The current token is taken. -/
theorem advance (placed : ∀ first ∈ cursor.rest.head?, cursor.line = first.line)
    (hfile : cursor.current ≠ .endOfFile) :
    Since cursor.rest cursor.line [.bare cursor.current] cursor.advance := by
  cases hrest : cursor.rest with
  | nil =>
      rw [Cursor.current, hrest] at hfile
      exact absurd rfl hfile
  | cons first rest =>
      have hcurrent : cursor.current = first.token := by rw [Cursor.current, hrest]
      have hline : cursor.line = first.line := placed first (by rw [hrest]; rfl)
      constructor
      case placed =>
        intro next hnext
        rw [Cursor.rest_advance, hrest] at hnext
        cases rest with
        | nil => cases hnext
        | cons second others =>
            cases hnext
            rw [Cursor.advance, hrest]
      case split =>
        refine ⟨[first], ?_, hcurrent ▸ .bare first, nofun, ?_⟩
        · rw [Cursor.rest_advance, hrest]
          rfl
        · rintro _ ⟨⟩
          exact hline.symm

end Since

/-! ### Readers -/

/-- At places where a property holds, the tokens taken before and those taken by the reader
are the spots of what it gives, which has a property as well. -/
def KeepsAt (place : Cursor → Prop) (line : Nat) (taken : List Spot) (reader : Reader α)
    (spots : α → List Spot) (property : α → Prop) : Prop :=
  ∀ start cursor final value, place cursor → Since start line taken cursor →
    reader.run cursor = .ok value final → Since start line (spots value) final ∧ property value

/-- Everywhere, the tokens taken before and those taken by the reader are the spots of what
it gives. -/
def KeepsAfter (line : Nat) (taken : List Spot) (reader : Reader α) (spots : α → List Spot)
    (property : α → Prop) : Prop :=
  ∀ start cursor final value, Since start line taken cursor →
    reader.run cursor = .ok value final → Since start line (spots value) final ∧ property value

/-- The tokens that the reader takes are the spots of what it gives, and its value has a
property that mentions the line where the reader begins. -/
def Keeps (reader : Reader α) (spots : α → List Spot) (property : Nat → α → Prop) : Prop :=
  ∀ line, KeepsAfter line [] reader spots (property line)

/-- A reader whose value has no further property. -/
abbrev KeepsTokens (reader : Reader α) (spots : α → List Spot) : Prop :=
  Keeps reader spots fun _ _ => True

variable {line : Nat} {taken : List Spot} {reader : Reader α} {spots : α → List Spot}
  {property : α → Prop} {first : Reader β} {next : β → Reader α} {spotsFirst : β → List Spot}
  {propertyFirst : Nat → β → Prop}

theorem Keeps.bind (h : Keeps first spotsFirst propertyFirst)
    (hnext : ∀ line' value, propertyFirst line' value →
      KeepsAfter line (taken ++ spotsFirst value) (next value) spots property) :
    KeepsAfter line taken (first >>= next) spots property := by
  intro start cursor final result since hrun
  obtain ⟨value, middle, hfirst, hsecond⟩ := run_bind_eq_ok_iff.mp hrun
  obtain ⟨sinceMiddle, hvalue⟩ := h cursor.line _ _ _ _ (.refl since.placed) hfirst
  exact hnext cursor.line value hvalue start middle final result (since.trans sinceMiddle) hsecond

/-- The first reader of a sequence begins where the sequence does. -/
theorem Keeps.bind_first (h : Keeps first spotsFirst propertyFirst)
    (hnext : ∀ value, propertyFirst line value →
      KeepsAfter line (spotsFirst value) (next value) spots property) :
    KeepsAfter line [] (first >>= next) spots property := by
  intro start cursor final result since hrun
  obtain ⟨value, middle, hfirst, hsecond⟩ := run_bind_eq_ok_iff.mp hrun
  obtain ⟨sinceMiddle, hvalue⟩ := h line start cursor middle value since hfirst
  exact hnext value hvalue start middle final result sinceMiddle hsecond

theorem KeepsAt.bind_first {place : Cursor → Prop} {propertyFirst : β → Prop}
    (h : KeepsAt place line [] first spotsFirst propertyFirst)
    (hnext : ∀ value, propertyFirst value →
      KeepsAfter line (spotsFirst value) (next value) spots property) :
    KeepsAt place line [] (first >>= next) spots property := by
  intro start cursor final result hplace since hrun
  obtain ⟨value, middle, hfirst, hsecond⟩ := run_bind_eq_ok_iff.mp hrun
  obtain ⟨sinceMiddle, hvalue⟩ := h start cursor middle value hplace since hfirst
  exact hnext value hvalue start middle final result sinceMiddle hsecond

theorem keeps_pure {value : α} (hspots : taken = spots value) (hproperty : property value) :
    KeepsAfter line taken (pure value) spots property := by
  intro start cursor final result since hrun
  cases hrun
  exact ⟨hspots ▸ since, hproperty⟩

/-- A production's own node begins where the production does. -/
theorem KeepsAfter.node (kind : NodeKind) (hkind : kind.delay = 0)
    (h : KeepsAfter line (nodeAt kind line taken) reader spots property) :
    KeepsAfter line taken reader spots property :=
  fun start cursor final value since hrun =>
    h start cursor final value (since.nodeAt hkind) hrun

theorem keeps_node {value : α} (kind : NodeKind) (hkind : kind.delay = 0)
    (hspots : nodeAt kind line taken = spots value) (hproperty : property value) :
    KeepsAfter line taken (pure value) spots property :=
  (keeps_pure hspots hproperty).node kind hkind

/-- A node that keeps the line where its reader begins. -/
theorem Keeps.node {lineOf : α → Nat} (h : Keeps reader spots fun line value => lineOf value = line)
    (kind : NodeKind) (hkind : kind.delay = 0) :
    KeepsTokens reader fun value => nodeAt kind (lineOf value) (spots value) := by
  intro line start cursor final value since hrun
  obtain ⟨sinceFinal, hline⟩ := h line start cursor final value since hrun
  exact ⟨hline ▸ sinceFinal.nodeAt hkind, trivial⟩

theorem keeps_unexpected (expected : Expectation) :
    KeepsAfter line taken (unexpected expected) spots property := by
  intro start cursor final value _ hrun
  cases hrun

theorem keeps_modify_bind {change : Cursor → Cursor} {next : PUnit → Reader α}
    (hrest : ∀ cursor, (change cursor).rest = cursor.rest)
    (hline : ∀ cursor, (change cursor).line = cursor.line)
    (h : KeepsAfter line taken (next ⟨⟩) spots property) :
    KeepsAfter line taken (modify change >>= next) spots property :=
  fun start cursor final value since hrun =>
    h start (change cursor) final value (since.congr (hrest cursor) (hline cursor)) hrun

theorem Keeps.tokens {property : Nat → α → Prop} (h : Keeps reader spots property) :
    KeepsTokens reader spots :=
  fun line start cursor final value since hrun =>
    ⟨(h line start cursor final value since hrun).1, trivial⟩

theorem KeepsAfter.within (h : KeepsAfter line taken reader spots property)
    (production : Production) :
    KeepsAfter line taken (within production reader) spots property := by
  refine keeps_modify_bind (fun _ => rfl) (fun _ => rfl) ?_
  intro start cursor final result since hrun
  obtain ⟨value, middle, hreader, hleave⟩ := run_bind_eq_ok_iff.mp hrun
  obtain ⟨_, between, hrecord, hpure⟩ := run_bind_eq_ok_iff.mp hleave
  obtain ⟨sinceMiddle, hvalue⟩ := h start cursor middle value since hreader
  cases hpure
  cases hrecord
  exact ⟨sinceMiddle.congr rfl rfl, hvalue⟩

/-- Bounds on the nesting that depend on the place. -/
theorem keeps_of_depth {reader : Nat → Reader α} {property : Nat → α → Prop}
    (h : ∀ depth, Keeps (reader depth) spots property) :
    Keeps (do reader ((← get).rest.length + 1)) spots property :=
  fun line start cursor final value since hrun =>
    h (cursor.rest.length + 1) line start cursor final value since hrun

/-- The line where a production begins. -/
theorem keeps_currentLine_bind {next : Nat → Reader α}
    (h : KeepsAfter line [] (next line) spots property) :
    KeepsAfter line [] (currentLine >>= next) spots property := by
  intro start cursor final value since hrun
  change (next cursor.line).run cursor = _ at hrun
  rw [since.line_eq] at hrun
  exact h start cursor final value since hrun

/-! ### Looking at the current token -/

/-- Only the current token counts. -/
def At (token : Token) (cursor : Cursor) : Prop :=
  cursor.current = token

theorem KeepsAfter.keepsAt (h : KeepsAfter line taken reader spots property)
    (place : Cursor → Prop) : KeepsAt place line taken reader spots property :=
  fun start cursor final value _ since hrun => h start cursor final value since hrun

theorem keeps_current_bind {body : Token → Reader α}
    (h : ∀ token, KeepsAt (At token) line taken (body token) spots property) :
    KeepsAfter line taken (current >>= body) spots property :=
  fun start cursor final value since hrun =>
    h cursor.current start cursor final value rfl since hrun

theorem keeps_nextKind_bind {body : Token.Kind → Reader α}
    (h : ∀ kind, KeepsAfter line taken (body kind) spots property) :
    KeepsAfter line taken (nextKind >>= body) spots property :=
  fun start cursor final value since hrun =>
    h cursor.nextKind start cursor final value since hrun

/-- The current token is taken. -/
theorem keepsAt_advance_bind {token : Token} {next : Unit → Reader α}
    (hfile : token ≠ .endOfFile)
    (h : KeepsAfter line (taken ++ [.bare token]) (next ()) spots property) :
    KeepsAt (At token) line taken (advance >>= next) spots property := by
  intro start cursor final value hcurrent since hrun
  cases hcurrent
  exact h start cursor.advance final value (since.trans (.advance since.placed hfile)) hrun

theorem keepsAt_advance {token : Token} (hfile : token ≠ .endOfFile) :
    KeepsAt (At token) line [] advance (fun _ => [.bare token]) fun _ => True :=
  keepsAt_advance_bind hfile (keeps_pure rfl trivial)

theorem keeps_expect {token : Token} (hfile : token ≠ .endOfFile)
    (hkind : ∀ other : Token, other.kind = token.kind → other = token) :
    KeepsTokens (expect token.kind) fun _ => [.bare token] := by
  intro line
  apply keeps_current_bind
  intro other
  by_cases h : other.kind = token.kind
  · rw [if_pos h, hkind other h]
    exact keepsAt_advance hfile
  · rw [if_neg h]
    exact (keeps_unexpected _).keepsAt _

theorem keeps_mark (symbol : Symbol) :
    KeepsTokens (mark symbol) fun _ => [.bare (.symbol symbol)] :=
  @keeps_expect (.symbol symbol) (by nofun) fun _ => Token.kind_eq_symbol_iff.mp

theorem keeps_word (keyword : Keyword) :
    KeepsTokens (word keyword) fun _ => [.bare (.keyword keyword)] :=
  @keeps_expect (.keyword keyword) (by nofun) fun _ => Token.kind_eq_keyword_iff.mp

theorem keeps_takeName : KeepsTokens takeName fun name => [.bare (.name name)] := by
  intro line
  apply keeps_current_bind
  intro token
  split
  · exact keepsAt_advance_bind (by nofun) (keeps_pure rfl trivial)
  · exact (keeps_unexpected _).keepsAt _

/-- One of two readers goes on, as a token says. -/
theorem keeps_sees_bind {kind : Token.Kind} {yes no : Reader α}
    (hyes : KeepsAfter line taken yes spots property)
    (hno : KeepsAfter line taken no spots property) :
    KeepsAfter line taken (sees kind >>= fun seen => if seen = true then yes else no) spots
      property := by
  rw [Reader.sees_bind]
  apply keeps_current_bind
  intro token
  split
  · exact hyes.keepsAt _
  · exact hno.keepsAt _

/-! ### Repetitions -/

section

variable {property : Nat → α → Prop}

theorem Keeps.atMost {begins : Token → Bool} {item : Reader α} (h : Keeps item spots property)
    (rounds : Nat) :
    KeepsTokens (atMost begins item rounds) fun values => values.flatMap spots := by
  induction rounds with
  | zero => exact fun _ => keeps_pure rfl trivial
  | succ rounds ih =>
      intro line
      apply keeps_current_bind
      intro token
      split
      · apply KeepsAfter.keepsAt
        apply h.bind_first
        intro first _
        apply ih.bind
        exact fun _ others _ => keeps_pure rfl trivial
      · apply KeepsAfter.keepsAt
        exact keeps_pure rfl trivial

theorem Keeps.many {begins : Token → Bool} {item : Reader α} (h : Keeps item spots property) :
    KeepsTokens (many begins item) fun values => values.flatMap spots :=
  fun line start cursor final value since hrun =>
    h.atMost cursor.rest.length line start cursor final value since hrun

theorem Keeps.many1 {begins : Token → Bool} {item : Reader α} (h : Keeps item spots property) :
    KeepsTokens (many1 begins item) fun values => values.flatMap spots := by
  intro line
  apply h.bind_first
  intro first _
  apply h.many.bind
  exact fun _ others _ => keeps_pure rfl trivial

/-- There is at least one item between separators. -/
theorem Keeps.separated_bind {symbol : Symbol} {item : Reader β} {spotsItem : β → List Spot}
    {propertyItem : Nat → β → Prop} {next : List β → Reader α} {property : α → Prop}
    (h : Keeps item spotsItem propertyItem)
    (hnext : ∀ first others, KeepsAfter line (taken ++ separatedSpots symbol
      ((first :: others).map spotsItem)) (next (first :: others)) spots property) :
    KeepsAfter line taken (separated symbol item >>= next) spots property := by
  have hmore : KeepsTokens (mark symbol >>= fun _ => item) fun value =>
      .bare (.symbol symbol) :: spotsItem value := by
    intro line
    apply (keeps_mark symbol).bind_first
    intro _ _
    rw [← bind_pure item]
    apply h.bind
    exact fun _ value _ => keeps_pure rfl trivial
  rw [separated, bind_assoc]
  apply h.bind
  intro _ first _
  rw [bind_assoc]
  apply hmore.many.bind
  intro _ others _
  have hprinted := hnext first others
  rw [List.map_cons, separatedSpots, List.flatMap_map, ← List.append_assoc] at hprinted
  exact hprinted

theorem Keeps.separated {symbol : Symbol} {item : Reader α} (h : Keeps item spots property) :
    KeepsTokens (separated symbol item) fun values => separatedSpots symbol (values.map spots) := by
  intro line
  rw [← bind_pure (Reader.separated symbol item)]
  exact h.separated_bind fun _ _ => keeps_pure rfl trivial

/-- Each operand stands after its operator. -/
theorem Keeps.operands {operator? : Token → Option β} {spell : β → Token} {item : Reader α}
    (hspell : ∀ token operator, operator? token = some operator → token = spell operator)
    (hfile : ∀ operator, spell operator ≠ .endOfFile) (h : Keeps item spots property) :
    Keeps (operands operator? item)
      (fun values => values.flatMap fun value => .bare (spell value.1) :: spots value.2)
      fun _ values => ∀ value ∈ values, ∃ token, operator? token = some value.1 := by
  suffices hbounded : ∀ rounds, Keeps (operandsAtMost operator? item rounds)
      (fun values => values.flatMap fun value => .bare (spell value.1) :: spots value.2)
      fun _ values => ∀ value ∈ values, ∃ token, operator? token = some value.1 from
    fun line start cursor final value since hrun =>
      hbounded cursor.rest.length line start cursor final value since hrun
  intro rounds
  induction rounds with
  | zero => exact fun _ => keeps_pure rfl fun _ hvalue => absurd hvalue List.not_mem_nil
  | succ rounds ih =>
      intro line
      apply keeps_current_bind
      intro token
      split
      · next operator hsome =>
          obtain rfl := hspell token operator hsome
          apply keepsAt_advance_bind (hfile operator)
          apply h.bind
          intro _ operand _
          apply ih.bind
          intro _ others hothers
          exact keeps_pure rfl (List.forall_mem_cons.mpr ⟨⟨_, hsome⟩, hothers⟩)
      · apply KeepsAfter.keepsAt
        exact keeps_pure rfl fun _ hvalue => absurd hvalue List.not_mem_nil

end

end MiniPascal.Outline.Reader
