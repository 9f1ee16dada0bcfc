import MiniPascal.Proofs.Code.Constants
import MiniPascal.Proofs.Check.Occurs
import MiniPascal.Proofs.Source.Semantics
import Mathlib.Data.List.Flatten

/-!
# What names stand for in a checked tree

The declaration that a name is bound to says what the name means: a variable has
its word in the program's frame, a constant its number, and so on.  The library
agrees so with the names that every program can use, and each declaration keeps
the agreement.
-/

namespace MiniPascal.Source

open MiniPascal.Machine

/-- Where the words of a program's own variables lie. -/
def slotAt (index : Nat) : Layout where
  frameLevel := 1
  offset := Frame.firstLocalOffset - Frame.wordSize * index

/-- A declaration is what a name means.  Variables lie in the program's frame, one
below the other in the order of the given list. -/
inductive Denotes (tree : Tree) (slots : List String) (name : String) (id : DeclId) :
    Option Meaning → Prop
  | word {decl : Decl} {type : TypeExpr DeclId} {index : Nat}
      (found : tree.decls[id]? = some decl) (kind : decl.kind = .variableOf type)
      (slot : slots[index]? = some name) (layout : decl.layout? = some (slotAt index)) :
      Denotes tree slots name id (some .variable)
  | constant {path : List DeclId} {value : Int} {literal? : Option Literal}
      (denotes : tree.Denotes path id value literal?) :
      Denotes tree slots name id (some (.constant value literal?))
  | typeName {decl : Decl} {type : TypeExpr DeclId} (found : tree.decls[id]? = some decl)
      (kind : decl.kind = .type type) : Denotes tree slots name id (some .typeName)
  | write {decl : Decl} {heading : Routine} (found : tree.decls[id]? = some decl)
      (kind : decl.kind = .routine heading) (builtin : heading.isBuiltin = true)
      (procedure : heading.isFunction = false) : Denotes tree slots name id (some .write)

/-- Names are bound to what they mean. -/
def Agrees (tree : Tree) (slots : List String) (scope : String → Option DeclId)
    (names : Names) : Prop :=
  ∀ name id, scope name = some id → Denotes tree slots name id (names name)

variable {tree : Tree} {slots : List String} {scope : String → Option DeclId} {names : Names}

/-! ### Declaring names -/

/-- A name that is declared anew means what its declaration is. -/
theorem Agrees.declare (agrees : Agrees tree slots scope names) {x : Numbered}
    {names' : Names} (hnew : Denotes tree slots x.decl.name x.id (names' x.decl.name))
    (hold : ∀ name ≠ x.decl.name, names' name = names name) :
    Agrees tree slots (namesIn [x] scope) names' := by
  intro name id hname
  by_cases heq : name = x.decl.name
  · subst heq
    have hid : x.id = id := by simpa [namesIn, tableOf] using hname
    rw [← hid]
    exact hnew
  · rw [hold name heq]
    apply agrees
    rwa [namesIn, lookup_tableOf_eq_none_iff.mpr (by simpa using heq), Option.none_or] at hname

theorem Agrees.add (agrees : Agrees tree slots scope names) {x : Numbered} {meaning : Meaning}
    (hnew : Denotes tree slots x.decl.name x.id (some meaning)) :
    Agrees tree slots (namesIn [x] scope) (names.add x.decl.name meaning) := by
  apply agrees.declare
  · rw [Names.add, if_pos rfl]
    exact hnew
  · exact fun name hne => if_neg hne

def Names.addLiteral (names : Names) (decl : Decl) : Names :=
  match decl.kind with
  | .enumLiteral code => names.add decl.name (.constant code none)
  | _ => names

/-- The literals of a type are declared in its order. -/
theorem Names.addLiterals_eq (names : Names) (type : TypeExpr Ident) :
    names.addLiterals type = type.literalDecls.foldl Names.addLiteral names := by
  induction type generalizing names with
  | enumeration literals line =>
      rw [Names.addLiterals, TypeExpr.literalDecls, List.foldl_map]
      rfl
  | array index element line ihIndex ihElement =>
      rw [Names.addLiterals, TypeExpr.literalDecls, List.foldl_append, ihIndex, ihElement]
  | named | range | builtin => rfl

theorem Agrees.addLiterals (agrees : Agrees tree slots scope names) {literals : List Numbered}
    (hkinds : ∀ x ∈ literals, ∃ code, x.decl.kind = .enumLiteral code)
    (herased : ∀ x ∈ literals, tree.decls[x.id]?.map Decl.erased = some x.decl.erased) :
    Agrees tree slots (namesIn literals scope)
      ((literals.map Numbered.decl).foldl Names.addLiteral names) := by
  induction literals generalizing scope names with
  | nil => exact agrees
  | cons x literals ih =>
      obtain ⟨⟨code, hkind⟩, hkinds⟩ := List.forall_mem_cons.mp hkinds
      obtain ⟨hx, herased⟩ := List.forall_mem_cons.mp herased
      obtain ⟨decl, hdecl, heq⟩ := Option.map_eq_some_iff.mp hx
      have hsame : decl.kind.erased = x.decl.kind.erased := congrArg Decl.kind heq
      rw [hkind] at hsame
      have hdenotes : tree.Denotes [x.id] x.id code none := by
        apply Tree.Denotes.enumLiteral hdecl
        cases hkindOf : decl.kind with
        | enumLiteral found =>
            rw [hkindOf] at hsame
            exact hsame
        | constant | type | variableOf | parameter | routine =>
            rw [hkindOf] at hsame
            cases hsame
      have hadded : Names.addLiteral names x.decl =
          names.add x.decl.name (.constant code none) := by
        rw [Names.addLiteral, hkind]
      rw [List.map_cons, List.foldl_cons, hadded, ← List.singleton_append, namesIn_append]
      exact ih (agrees.add (.constant hdenotes)) hkinds herased

/-! ### Entries -/

section Entries

variable {level : ScopeLevel Int} {entry : DeclEntry}

/-- A name that is used as a constant means one. -/
theorem Agrees.exists_constant (agrees : Agrees tree slots scope names) {block : BlockId}
    {ref : NameRef} (bound : tree.Bound scope block (.constant, ref)) :
    ∃ next path value literal?, ref.decl? = some next ∧ tree.Denotes path next value literal? ∧
      names ref.name = some (.constant value literal?) := by
  obtain ⟨next, target, hnext, hscope, htarget, hobjection⟩ := bound
  have hdenotes := agrees ref.name next hscope
  simp only [NameUse.objection?] at hobjection
  cases hmeaning : names ref.name with
  | none =>
      rw [hmeaning] at hdenotes
      cases hdenotes
  | some meaning =>
      rw [hmeaning] at hdenotes
      cases hdenotes with
      | constant denotes => exact ⟨next, _, _, _, hnext, denotes, rfl⟩
      | word found kind | typeName found kind | write found kind =>
          obtain rfl := Option.some.inj (found.symm.trans htarget)
          rw [kind] at hobjection
          cases hobjection

theorem Agrees.denotes_constant (agrees : Agrees tree slots scope names)
    (checked : EntryChecked tree level scope entry) {name : String} {content : Constant}
    (herased : tree.decls[entry.declared.id]?.map Decl.erased = some entry.declared.decl.erased)
    (hkind : entry.declared.decl.kind = .constant content) :
    Denotes tree slots name entry.declared.id (names.constant? content) := by
  obtain ⟨decl, hfound, hbound⟩ := checked.bound
  rw [hfound, Option.map_some, Option.some.injEq] at herased
  have hsame : decl.kind.erased = entry.declared.decl.kind.erased := congrArg Decl.kind herased
  rw [hkind] at hsame
  cases hkindOf : decl.kind with
  | constant found =>
      rw [hkindOf] at hsame hbound
      have hcontent : found.erased = content.erased := DeclKind.constant.inj hsame
      cases found with
      | literal value line =>
          cases content with
          | literal value' line' =>
              obtain ⟨rfl, -⟩ := Constant.literal.inj hcontent
              exact .constant (.literal hfound hkindOf)
          | named ref => cases hcontent
      | named ref =>
          cases content with
          | literal value line => cases hcontent
          | named ref' =>
              have hrefs := @Constant.named.inj ref.erased ref'.erased hcontent
              obtain ⟨next, path, value, literal?, hnext, hdenotes, hmeaning⟩ :=
                agrees.exists_constant (hbound _ List.mem_cons_self)
              rw [(NameRef.mk.inj hrefs).1] at hmeaning
              rw [Names.constant?, hmeaning]
              exact .constant (.named hfound hkindOf hnext hdenotes)
  | type | variableOf | parameter | enumLiteral | routine =>
      rw [hkindOf] at hsame
      cases hsame

/-- A constant means what it is defined by. -/
theorem Agrees.constant (agrees : Agrees tree slots scope names)
    (checked : EntryChecked tree level scope entry)
    (herased : tree.decls[entry.declared.id]?.map Decl.erased = some entry.declared.decl.erased)
    {source : Ident × Constant} (hliterals : entry.literals = [])
    (hdecl : entry.declared.decl = .bare source.1.name source.1.line (.constant source.2)) :
    Agrees tree slots (namesIn entry.all scope) (names.addConstant source) := by
  have hname : entry.declared.decl.name = source.1.name := by
    rw [hdecl]
    rfl
  rw [DeclEntry.all, hliterals]
  apply agrees.declare
  · rw [hname, Names.addConstant, if_pos rfl]
    apply agrees.denotes_constant checked herased
    rw [hdecl]
    rfl
  · rw [hname]
    exact fun name hne => if_neg hne

/-- A typed entry declares its name, and then the literals of its type. -/
theorem Agrees.typed (agrees : Agrees tree slots scope names)
    {kind : TypeExpr DeclId → DeclKind} {source : Ident × TypeExpr Ident} {meaning : Meaning}
    (typed : DeclEntry.Typed kind source entry)
    (hnew : Denotes tree slots source.1.name entry.declared.id (some meaning))
    (herased : ∀ x ∈ entry.literals, tree.decls[x.id]?.map Decl.erased = some x.decl.erased) :
    Agrees tree slots (namesIn entry.all scope) (names.addTyped meaning source) := by
  obtain ⟨type, hdecl, -, -, hliterals⟩ := typed
  have hname : entry.declared.decl.name = source.1.name := by
    rw [hdecl]
    rfl
  have hkinds : ∀ x ∈ entry.literals, ∃ code, x.decl.kind = .enumLiteral code := by
    intro x hx
    obtain ⟨code, hcode, -⟩ := source.2.literalDecls_kind x.decl
      (hliterals ▸ List.mem_map_of_mem hx)
    exact ⟨code, hcode⟩
  rw [← hname] at hnew
  rw [DeclEntry.all, ← List.singleton_append, namesIn_append, Names.addTyped, Names.addLiterals_eq,
    ← hliterals, ← hname]
  exact (agrees.add hnew).addLiterals hkinds herased

/-- A declaration that is a type or a variable of the program, once it is checked. -/
theorem denotes_typeName {source : Ident × TypeExpr Ident}
    (herased : tree.decls[entry.declared.id]?.map Decl.erased = some entry.declared.decl.erased)
    (typed : DeclEntry.Typed .type source entry) :
    Denotes tree slots source.1.name entry.declared.id (some .typeName) := by
  obtain ⟨type, hdecl, -⟩ := typed
  obtain ⟨decl, hfound, heq⟩ := Option.map_eq_some_iff.mp herased
  have hsame : decl.kind.erased = entry.declared.decl.kind.erased := congrArg Decl.kind heq
  rw [hdecl] at hsame
  cases hkind : decl.kind with
  | type => exact .typeName hfound hkind
  | constant | variableOf | parameter | enumLiteral | routine =>
      rw [hkind] at hsame
      cases hsame

theorem denotes_variable {source : Ident × TypeExpr Ident} {index : Nat}
    (checked : EntryChecked tree level scope entry)
    (herased : tree.decls[entry.declared.id]?.map Decl.erased = some entry.declared.decl.erased)
    (typed : DeclEntry.Typed .variableOf source entry)
    (hlevel : level.frameLevel = 1)
    (hoffset : level.nextOffset = Frame.firstLocalOffset - Frame.wordSize * index)
    (hslot : slots[index]? = some source.1.name) :
    Denotes tree slots source.1.name entry.declared.id (some .variable) := by
  obtain ⟨type, hdecl, -⟩ := typed
  obtain ⟨decl, hfound, -, hlayout⟩ := checked.laidOut
  rw [hfound, Option.map_some, Option.some.injEq] at herased
  have hsame : decl.kind.erased = entry.declared.decl.kind.erased := congrArg Decl.kind herased
  rw [hdecl] at hsame hlayout
  rw [ScopeLevel.layoutFor_of_takesWord rfl, hlevel, hoffset] at hlayout
  cases hkind : decl.kind with
  | variableOf => exact .word hfound hkind hslot hlayout
  | constant | type | parameter | enumLiteral | routine =>
      rw [hkind] at hsame
      cases hsame

end Entries

/-! ### Declaration parts -/

section Parts

variable {level : ScopeLevel Int} {around : String → Option DeclId} {params : List Numbered}
variable {entries : List DeclEntry}

/-- Declarations keep the agreement one after another when each of them does. -/
theorem agrees_forall₂ {α : Type} {R : α → DeclEntry → Prop} {extend : Names → α → Names}
    {sources : List α} {group before after : List DeclEntry}
    (h : List.Forall₂ R sources group) (heq : entries = before ++ group ++ after)
    (step : ∀ source before entry after names, R source entry → entries = before ++ entry :: after →
      Agrees tree slots (namesIn (params ++ before.flatMap DeclEntry.all) around) names →
      Agrees tree slots
        (namesIn entry.all (namesIn (params ++ before.flatMap DeclEntry.all) around))
        (extend names source))
    (agrees : Agrees tree slots (namesIn (params ++ before.flatMap DeclEntry.all) around) names) :
    Agrees tree slots (namesIn (params ++ (before ++ group).flatMap DeclEntry.all) around)
      (sources.foldl extend names) := by
  induction h generalizing before names with
  | nil =>
      rw [List.append_nil]
      exact agrees
  | @cons source entry sources group hentry _ ih =>
      rw [List.append_assoc, List.cons_append] at heq
      have hnext := step source before entry (group ++ after) names hentry heq agrees
      rw [← namesIn_append, List.append_assoc, ← List.flatMap_singleton DeclEntry.all entry,
        ← List.flatMap_append] at hnext
      have hall := @ih _ (before ++ [entry]) (by rw [heq]; simp) hnext
      rw [List.append_assoc, List.singleton_append] at hall
      exact hall

/-- The word of an entry has its place among all words of the block. -/
theorem getElem?_wordsOf {before after : List DeclEntry} {entry : DeclEntry}
    (h : entry.declared.decl.kind.takesWord = true) :
    ((wordsOf (before ++ entry :: after)).map (·.decl.name))[(wordsOf before).length]? =
      some entry.declared.decl.name := by
  have hwords : wordsOf (before ++ entry :: after) =
      wordsOf before ++ entry.declared :: wordsOf after := by
    simp [wordsOf, h]
  rw [hwords, List.map_append, List.getElem?_append_right (by simp), List.length_map, Nat.sub_self]
  rfl

/-- Each declaration part without routines keeps the agreement. -/
theorem Agrees.addPart {part : Outline.Part} {group before after : List DeclEntry}
    (checked : EntriesChecked tree level around params entries)
    (hlevel : level.frameLevel = 1) (hoffset : level.nextOffset = Frame.firstLocalOffset)
    (herased : ∀ entry ∈ entries, ∀ x ∈ entry.all,
      tree.decls[x.id]?.map Decl.erased = some x.decl.erased)
    (numbers : part.Numbers group) (free : ∀ heading body, part ≠ .routine heading body)
    (heq : entries = before ++ group ++ after)
    (agrees : Agrees tree ((wordsOf entries).map (·.decl.name))
      (namesIn (params ++ before.flatMap DeclEntry.all) around) names) :
    Agrees tree ((wordsOf entries).map (·.decl.name))
      (namesIn (params ++ (before ++ group).flatMap DeclEntry.all) around)
      (names.addPart part) := by
  cases part with
  | constants decls =>
      apply agrees_forall₂ numbers heq _ agrees
      rintro source before entry after names ⟨hliterals, hdecl⟩ rfl agrees
      have hentry := herased entry (List.mem_append_right _ List.mem_cons_self) entry.declared
        List.mem_cons_self
      exact agrees.constant (checked before entry after rfl) hentry hliterals hdecl
  | types decls =>
      apply agrees_forall₂ numbers heq _ agrees
      rintro source before entry after names typed rfl agrees
      have hentry := List.forall_mem_cons.mp
        (herased entry (List.mem_append_right _ List.mem_cons_self))
      exact agrees.typed typed (denotes_typeName hentry.1 typed) hentry.2
  | vars decls =>
      apply agrees_forall₂ numbers heq _ agrees
      rintro source before entry after names typed rfl agrees
      have hentry := List.forall_mem_cons.mp
        (herased entry (List.mem_append_right _ List.mem_cons_self))
      apply agrees.typed typed _ hentry.2
      have checked := checked before entry after rfl
      apply denotes_variable checked hentry.1 typed hlevel
      · rw [← hoffset]
        rfl
      · obtain ⟨type, hdecl, -⟩ := typed
        have hslot := @getElem?_wordsOf before after entry (by rw [hdecl]; rfl)
        rw [hdecl] at hslot
        exact hslot
  | routine heading body => exact absurd rfl (free heading body)

/-- Declaration parts without routines keep the agreement. -/
theorem agrees_parts {parts : List Outline.Part} {groups : List (List DeclEntry)}
    {before : List DeclEntry} (checked : EntriesChecked tree level around params entries)
    (hlevel : level.frameLevel = 1) (hoffset : level.nextOffset = Frame.firstLocalOffset)
    (herased : ∀ entry ∈ entries, ∀ x ∈ entry.all,
      tree.decls[x.id]?.map Decl.erased = some x.decl.erased)
    (numbers : List.Forall₂ Outline.Part.Numbers parts groups)
    (free : ∀ part ∈ parts, ∀ heading body, part ≠ .routine heading body)
    (heq : entries = before ++ groups.flatten)
    (agrees : Agrees tree ((wordsOf entries).map (·.decl.name))
      (namesIn (params ++ before.flatMap DeclEntry.all) around) names) :
    Agrees tree ((wordsOf entries).map (·.decl.name))
      (namesIn (params ++ entries.flatMap DeclEntry.all) around)
      (parts.foldl Names.addPart names) := by
  induction numbers generalizing before names with
  | nil =>
      rw [List.flatten_nil, List.append_nil] at heq
      rw [heq] at agrees ⊢
      exact agrees
  | @cons part group parts groups numbers _ ih =>
      obtain ⟨hfree, hfrees⟩ := List.forall_mem_cons.mp free
      rw [List.flatten_cons, ← List.append_assoc] at heq
      exact ih hfrees heq (agrees.addPart checked hlevel hoffset herased numbers hfree heq)

end Parts

/-! ### Programs -/

theorem wordsOf_append (entries entries' : List DeclEntry) :
    wordsOf (entries ++ entries') = wordsOf entries ++ wordsOf entries' := by
  rw [wordsOf, List.map_append, List.filter_append]
  rfl

theorem wordsOf_eq_nil {entries : List DeclEntry}
    (h : ∀ entry ∈ entries, entry.declared.decl.kind.takesWord = false) : wordsOf entries = [] := by
  rw [wordsOf, List.filter_eq_nil_iff]
  intro x hx
  obtain ⟨entry, hentry, rfl⟩ := List.mem_map.mp hx
  rw [h entry hentry]
  exact Bool.false_ne_true

/-- The words of a part without routines are those of its variables. -/
theorem words_of_numbers {part : Outline.Part} {group : List DeclEntry}
    (numbers : part.Numbers group) (free : ∀ heading body, part ≠ .routine heading body) :
    (wordsOf group).map (·.decl.name) = partVariables part := by
  cases part with
  | constants decls =>
      rw [wordsOf_eq_nil]
      · rfl
      · intro entry hentry
        obtain ⟨source, -, -, hdecl⟩ := exists_of_forall₂_right numbers hentry
        rw [hdecl]
        rfl
  | types decls =>
      rw [wordsOf_eq_nil]
      · rfl
      · intro entry hentry
        obtain ⟨source, -, type, hdecl, -⟩ := exists_of_forall₂_right numbers hentry
        rw [hdecl]
        rfl
  | vars decls =>
      change List.Forall₂ (DeclEntry.Typed .variableOf) decls group at numbers
      induction numbers with
      | nil => rfl
      | @cons source entry decls group typed _ ih =>
          obtain ⟨type, hdecl, -⟩ := typed
          have htaken : wordsOf [entry] = [entry.declared] := by
            simp [wordsOf, hdecl, Decl.bare, DeclKind.takesWord]
          rw [← List.singleton_append, wordsOf_append, List.map_append, htaken,
            ih (fun _ _ => Outline.Part.noConfusion), List.map_singleton, hdecl]
          rfl
  | routine heading body => exact absurd rfl (free heading body)

theorem words_of_groups {parts : List Outline.Part} {groups : List (List DeclEntry)}
    (numbers : List.Forall₂ Outline.Part.Numbers parts groups)
    (free : ∀ part ∈ parts, ∀ heading body, part ≠ .routine heading body) :
    (wordsOf groups.flatten).map (·.decl.name) = parts.flatMap partVariables := by
  induction numbers with
  | nil => rfl
  | cons numbers _ ih =>
      obtain ⟨hfree, hfrees⟩ := List.forall_mem_cons.mp free
      rw [List.flatten_cons, wordsOf_append, List.map_append, List.flatMap_cons,
        words_of_numbers numbers hfree, ih hfrees]

/-- No entry of a part without routines is a routine. -/
theorem ne_routine_of_numbers {part : Outline.Part} {group : List DeclEntry}
    (numbers : part.Numbers group) (free : ∀ heading body, part ≠ .routine heading body) :
    ∀ entry ∈ group, ∀ heading, entry.declared.decl.kind ≠ .routine heading := by
  intro entry hentry found hkind
  cases part with
  | constants decls =>
      obtain ⟨source, -, -, hdecl⟩ := exists_of_forall₂_right numbers hentry
      rw [hdecl] at hkind
      cases hkind
  | types decls | vars decls =>
      obtain ⟨source, -, type, hdecl, -⟩ := exists_of_forall₂_right numbers hentry
      rw [hdecl] at hkind
      cases hkind
  | routine heading body => exact absurd rfl (free heading body)

/-- The library's declarations are what its names mean. -/
theorem library_agrees : ∀ decl ∈ Library.decls,
    (match decl.kind, Names.library decl.name with
    | .type _, some .typeName => true
    | .constant (.literal value _), some (.constant number literal?) =>
      number == value.value && literal? == some value
    | .enumLiteral code, some (.constant number none) => number == code
    | .routine heading, some .write => heading.isBuiltin && !heading.isFunction
    | _, _ => false) = true := by
  decide

/-- Before anything is declared, names mean what they stand for in the library. -/
theorem Agrees.library {first : DeclId}
    (declared : ∀ x ∈ Library.numbered first,
      tree.decls[x.id]? = some { x.decl with level? := some 0 }) :
    Agrees tree slots (Library.names first) Names.library := by
  intro name id hname
  rcases Option.or_eq_some_iff.mp hname with hfound | ⟨-, hnone⟩
  · obtain ⟨x, hx, rfl, rfl⟩ := exists_of_lookup_tableOf hfound
    have hdecl := declared x hx
    have hmem : x.decl ∈ Library.decls := by
      rw [← Library.map_decl_numberFrom first Library.decls]
      exact List.mem_map_of_mem hx
    have hagrees := library_agrees x.decl hmem
    split at hagrees
    · next type hkind hmeaning =>
        rw [hmeaning]
        exact .typeName hdecl hkind
    · next value line number literal? hkind hmeaning =>
        rw [Bool.and_eq_true_iff, beq_iff_eq, beq_iff_eq] at hagrees
        obtain ⟨rfl, rfl⟩ := hagrees
        rw [hmeaning]
        exact .constant (.literal hdecl hkind)
    · next code number hkind hmeaning =>
        rw [beq_iff_eq] at hagrees
        rw [hmeaning, hagrees]
        exact .constant (.enumLiteral hdecl hkind)
    · next heading hkind hmeaning =>
        rw [Bool.and_eq_true_iff, Bool.not_eq_true'] at hagrees
        rw [hmeaning]
        exact .write hdecl hkind hagrees.1 hagrees.2
    · cases hagrees
  · cases hnone

section Program

variable {outline : Outline} {skeleton : Skeleton}

abbrev siteOf (outline : Outline) : Site :=
  Library.site (Tree.ofOutline outline).decls.size

abbrev scopeOf (outline : Outline) (skeleton : Skeleton) : String → Option DeclId :=
  ((siteOf outline).inside skeleton.root).names

theorem variableNames_eq (hasSkeleton : Outline.HasSkeleton outline skeleton)
    (free : RoutineFree outline) :
    variableNames outline = (wordsOf skeleton.root.entries).map (·.decl.name) := by
  obtain ⟨groups, numbers, hentries⟩ := hasSkeleton.groups
  rw [hentries, words_of_groups numbers free]
  rfl

/-- No variable is declared twice. -/
theorem nodup_variableNames (program : CheckedProgram outline skeleton tree)
    (free : RoutineFree outline) : (variableNames outline).Nodup := by
  rw [variableNames_eq program.hasSkeleton free]
  apply List.Nodup.sublist _ program.checked.node.names_nodup
  apply List.Sublist.map
  calc (wordsOf skeleton.root.entries).Sublist (skeleton.root.entries.map DeclEntry.declared) :=
        List.filter_sublist
    List.Sublist _ (skeleton.root.entries.flatMap DeclEntry.all) := by
      rw [List.map_eq_flatMap]
      apply List.Sublist.flatMap_right
      exact fun entry _ => List.singleton_sublist.mpr List.mem_cons_self
    List.Sublist _ skeleton.root.declared := List.sublist_append_right _ _

theorem agrees_program (program : CheckedProgram outline skeleton tree)
    (free : RoutineFree outline) :
    Agrees tree (variableNames outline) (scopeOf outline skeleton) (Source.names outline) := by
  obtain ⟨groups, numbers, hentries⟩ := program.hasSkeleton.groups
  have hframe : skeleton.root.ownsFrame = true := by
    rw [Node.ownsFrame, program.hasSkeleton.program]
    rfl
  have hlevel : ((siteOf outline).entered skeleton.root).frameLevel = 1 := by
    rw [Site.entered, hframe]
    rfl
  have hoffset : ((siteOf outline).entered skeleton.root).nextOffset = Frame.firstLocalOffset := by
    rw [Site.entered, hframe]
    rfl
  have herased : ∀ entry ∈ skeleton.root.entries, ∀ x ∈ entry.all,
      tree.decls[x.id]?.map Decl.erased = some x.decl.erased := by
    intro entry hentry x hx
    apply program.erased_eq
    rw [Skeleton.declared_eq]
    exact List.mem_append_left _
      (List.mem_append_right _ (List.mem_flatMap.mpr ⟨entry, hentry, hx⟩))
  have hlibrary : Agrees tree ((wordsOf skeleton.root.entries).map (·.decl.name))
      (namesIn (skeleton.root.params ++ [].flatMap DeclEntry.all) (siteOf outline).names)
      Names.library := by
    rw [program.hasSkeleton.params_eq]
    exact Agrees.library program.declared
  rw [variableNames_eq program.hasSkeleton free]
  exact agrees_parts program.checked.node.entries hlevel hoffset herased numbers free hentries
    hlibrary

/-- A program without routines has no block but its own. -/
theorem inner_eq_nil (hasSkeleton : Outline.HasSkeleton outline skeleton)
    (free : RoutineFree outline) : skeleton.inner = [] := by
  obtain ⟨groups, numbers, hentries⟩ := hasSkeleton.groups
  have hwellFormed := hasSkeleton.wellFormed
  cases hwellFormed with
  | @mk root inner _ bodies _ _ =>
      apply List.eq_nil_iff_forall_not_mem.mpr
      intro body hbody
      obtain ⟨id, -, -, -, -, entry, hentry, -, result, hkind⟩ :=
        exists_of_forall₂_left bodies hbody
      change root.entries = _ at hentries
      rw [hentries] at hentry
      obtain ⟨group, hgroup, hentry⟩ := List.mem_flatten.mp hentry
      obtain ⟨part, hpart, hnumbers⟩ := exists_of_forall₂_right numbers hgroup
      exact ne_routine_of_numbers hnumbers (free part hpart) entry hentry _ hkind

theorem routines_eq_nil (hasSkeleton : Outline.HasSkeleton outline skeleton)
    (free : RoutineFree outline) : skeleton.root.block.routines = [] := by
  have hinner := inner_eq_nil hasSkeleton free
  cases hasSkeleton.wellFormed with
  | mk _ bodies _ _ =>
      change _ = [] at hinner
      subst hinner
      exact List.forall₂_nil_left_iff.mp bodies

/-- The block of a program without routines: it has a word for each variable, and
its statements are those of the outline with every name bound. -/
theorem exists_programBlock (program : CheckedProgram outline skeleton tree)
    (free : RoutineFree outline) :
    ∃ block, tree.blocks[tree.body]? = some block ∧ block.routines = [] ∧ block.frameLevel = 1 ∧
      block.frameBytes = Frame.wordSize * (variableNames outline).length ∧
      Statement.erasedAll block.statements = Statement.erasedAll outline.body.statements ∧
      ∀ use ∈ Statement.usesAll block.statements,
        tree.Bound (scopeOf outline skeleton) skeleton.id use := by
  have hframe : skeleton.root.ownsFrame = true := by
    rw [Node.ownsFrame, program.hasSkeleton.program]
    rfl
  obtain ⟨statements, hblock, herased, hbound⟩ := program.checked.node.block
  rw [program.body_eq]
  refine ⟨_, hblock, routines_eq_nil program.hasSkeleton free, ?_, ?_, ?_, hbound⟩
  · change ((siteOf outline).entered skeleton.root).frameLevel = 1
    rw [Site.entered, hframe]
    rfl
  · have hwords : skeleton.frameWords = wordsOf skeleton.root.entries := by
      have hinner := inner_eq_nil program.hasSkeleton free
      cases skeleton
      change _ = [] at hinner
      subst hinner
      rw [Skeleton.frameWords, Skeleton.frameWordsAll, List.append_nil]
      rfl
    rw [variableNames_eq program.hasSkeleton free, List.length_map, ← hwords]
    exact if_pos hframe
  · rw [herased, program.hasSkeleton.block_eq]

end Program

end MiniPascal.Source
