import MiniPascal.Proofs.Grammar.Expressions

/-!
# Reading statements

An `else` could belong to any of the conditionals that are still open.  The reader gives
it to the last one, so it reads every statement in one of its derivations only: the one
where no consequence ends with an open conditional.  Each statement has such a derivation.
-/

namespace MiniPascal

open Token (Kind)
open scoped Computability

namespace Ebnf

/-! ### Words of statements -/

theorem words_assignment : words Production.assignment =
    words Production.variableRef * (oneOf [.symbol .assign] * words Production.expression) := by
  rw [words_production, Production.rule, words_append, words_append, words_mark, mul_assoc]

theorem words_procedureCall :
    words Production.procedureCall = oneOf [.name] * (arguments + 1) := by
  rw [words_production, Production.rule, words_append, words_optional, words_append, words_append,
    words_separated, words_name, words_mark, words_mark, words_mark, mul_assoc]
  rfl

theorem words_statementList : words Production.statementList =
    words Production.statement *
      (oneOf [.symbol .semicolon] * words Production.statement)∗ := by
  rw [words_production, Production.rule, words_separated, words_mark]

theorem words_compound : words Production.compound =
    oneOf [.keyword .begin_] * (words Production.statementList * oneOf [.keyword .end_]) := by
  rw [words_production, Production.rule, words_append, words_append, words_word, words_word,
    mul_assoc]

theorem words_ifThenElse : words Production.ifThenElse =
    oneOf [.keyword .if_] * (words Production.expression * (oneOf [.keyword .then_] *
      (words Production.statement *
        (oneOf [.keyword .else_] * words Production.statement + 1)))) := by
  rw [words_production, Production.rule, words_append, words_append, words_append, words_append,
    words_optional, words_append, words_word, words_word, words_word, mul_assoc, mul_assoc,
    mul_assoc]

theorem words_whileDo : words Production.whileDo =
    oneOf [.keyword .while_] * (words Production.expression * (oneOf [.keyword .do_] *
      words Production.statement)) := by
  rw [words_production, Production.rule, words_append, words_append, words_append, words_word,
    words_word, mul_assoc, mul_assoc]

theorem words_statement : words Production.statement =
    words Production.assignment + words Production.compound + words Production.ifThenElse +
      words Production.whileDo + words Production.procedureCall + 1 := by
  rw [words_production, Production.rule, words_or, words_or, words_or, words_or, words_or,
    words_empty]

/-! ### Open conditionals -/

/-- Statements that do not end with another statement. -/
def simpleStatements : Language Kind :=
  words Production.assignment + words Production.compound + words Production.procedureCall + 1

/-- A statement whose consequences before an `else` are closed.  It is closed itself if it
does not end with a conditional that lacks an `else`. -/
inductive Balanced : Bool → List Kind → Prop
  | simple {closed : Bool} {word : List Kind} (h : word ∈ simpleStatements) : Balanced closed word
  | ifThen {condition word : List Kind} (hcondition : condition ∈ words Production.expression)
      (h : Balanced false word) :
      Balanced false (.keyword .if_ :: (condition ++ .keyword .then_ :: word))
  | ifElse {closed : Bool} {condition word word' : List Kind}
      (hcondition : condition ∈ words Production.expression) (h : Balanced true word)
      (h' : Balanced closed word') : Balanced closed
        (.keyword .if_ :: (condition ++ .keyword .then_ :: (word ++ .keyword .else_ :: word')))
  | whileDo {closed : Bool} {condition word : List Kind}
      (hcondition : condition ∈ words Production.expression) (h : Balanced closed word) :
      Balanced closed (.keyword .while_ :: (condition ++ .keyword .do_ :: word))

/-- A closed statement is one that an open conditional can give its `else` away from; an
open one takes the `else`. -/
theorem Balanced.closed_or_takes_else {closed : Bool} {word : List Kind}
    (h : Balanced closed word) : Balanced true word ∨
      ∀ word', Balanced false word' → Balanced false (word ++ .keyword .else_ :: word') := by
  induction h with
  | simple h => exact .inl (.simple h)
  | ifThen hcondition h ih =>
      right
      intro word' hword'
      rw [List.cons_append, List.append_assoc, List.cons_append]
      rcases ih with hclosed | htakes
      · exact .ifElse hcondition hclosed hword'
      · exact .ifThen hcondition (htakes word' hword')
  | ifElse hcondition h h' ih ih' =>
      rcases ih' with hclosed | htakes
      · exact .inl (.ifElse hcondition h hclosed)
      · right
        intro word' hword'
        rw [List.cons_append, List.append_assoc, List.cons_append, List.append_assoc,
          List.cons_append]
        exact .ifElse hcondition h (htakes word' hword')
  | whileDo hcondition h ih =>
      rcases ih with hclosed | htakes
      · exact .inl (.whileDo hcondition hclosed)
      · right
        intro word' hword'
        rw [List.cons_append, List.append_assoc, List.cons_append]
        exact .whileDo hcondition (htakes word' hword')

/-- Every statement can be derived with closed consequences. -/
theorem balanced_of_statement {word : List Kind} (h : word ∈ words Production.statement) :
    Balanced false word := by
  induction hlength : word.length using Nat.strong_induction_on generalizing word with
  | _ length ih =>
      subst hlength
      rw [words_statement] at h
      rcases h with ((((h | h) | h) | h) | h) | h
      · exact .simple (.inl (.inl (.inl h)))
      · exact .simple (.inl (.inl (.inr h)))
      · rw [words_ifThenElse] at h
        obtain ⟨_, h₁, rfl⟩ := mem_oneOf_mul_iff.mp h
        obtain ⟨condition, hcondition, _, h₂, rfl⟩ := Language.mem_mul.mp h₁
        obtain ⟨_, h₃, rfl⟩ := mem_oneOf_mul_iff.mp h₂
        obtain ⟨consequence, hconsequence, _, h₄, rfl⟩ := Language.mem_mul.mp h₃
        simp only [List.length_cons, List.length_append] at ih
        have hfirst := ih _ (by omega) hconsequence rfl
        rcases h₄ with h₄ | rfl
        · obtain ⟨alternative, halternative, rfl⟩ := mem_oneOf_mul_iff.mp h₄
          rw [List.length_cons] at ih
          have hsecond := ih _ (by omega) halternative rfl
          rcases hfirst.closed_or_takes_else with hclosed | htakes
          · exact .ifElse hcondition hclosed hsecond
          · exact .ifThen hcondition (htakes alternative hsecond)
        · rw [List.append_nil]
          exact .ifThen hcondition hfirst
      · rw [words_whileDo] at h
        obtain ⟨_, h₁, rfl⟩ := mem_oneOf_mul_iff.mp h
        obtain ⟨condition, hcondition, _, h₂, rfl⟩ := Language.mem_mul.mp h₁
        obtain ⟨body, hbody, rfl⟩ := mem_oneOf_mul_iff.mp h₂
        simp only [List.length_cons, List.length_append] at ih
        exact .whileDo hcondition (ih _ (by omega) hbody rfl)
      · exact .simple (.inl (.inr h))
      · exact .simple (.inr h)

def balanced (closed : Bool) : Language Kind :=
  { word | Balanced closed word }

/-- The conditional without an `else` is for open statements. -/
theorem balanced_le (closed : Bool) : balanced closed ≤ simpleStatements +
    (oneOf [.keyword .if_] * (words Production.expression * (oneOf [.keyword .then_] *
      (balanced true * (oneOf [.keyword .else_] * balanced closed)))) +
    (oneOf [.keyword .while_] * (words Production.expression * (oneOf [.keyword .do_] *
      balanced closed)) +
    if closed then 0 else oneOf [.keyword .if_] * (words Production.expression *
      (oneOf [.keyword .then_] * balanced false)))) := by
  intro word h
  cases h with
  | simple h => exact .inl h
  | ifThen hcondition h =>
      exact .inr (.inr (.inr (mem_oneOf_mul_iff.mpr ⟨_, Language.append_mem_mul hcondition
        (mem_oneOf_mul_iff.mpr ⟨_, h, rfl⟩), rfl⟩)))
  | ifElse hcondition h h' =>
      exact .inr (.inl (mem_oneOf_mul_iff.mpr ⟨_, Language.append_mem_mul hcondition
        (mem_oneOf_mul_iff.mpr ⟨_, Language.append_mem_mul h
          (mem_oneOf_mul_iff.mpr ⟨_, h', rfl⟩), rfl⟩), rfl⟩))
  | whileDo hcondition h =>
      exact .inr (.inr (.inl (mem_oneOf_mul_iff.mpr ⟨_, Language.append_mem_mul hcondition
        (mem_oneOf_mul_iff.mpr ⟨_, h, rfl⟩), rfl⟩)))

end Ebnf

namespace Outline

open Reader Ebnf

variable {bound : Nat}

/-! ### Simple statements -/

theorem reads_assignment :
    Reads assignment (words Production.assignment) AfterExpression bound := by
  rw [words_assignment]
  apply Reads.within
  have hvariable : Reads (variableRef expression) (words Production.variableRef) AfterFactor
      bound := (reads_variableRef reads_expression).mono (fun _ => id) (Nat.le_succ bound)
  apply hvariable.bind _ (((starts_oneOf _).mul _).leads (by decide))
  rintro ⟨target, index⟩
  apply (reads_mark .assign).bind _ fun _ _ _ _ => trivial
  exact fun _ => reads_expression.bind_still fun _ => still_pure _

theorem reads_procedureCall :
    Reads procedureCall (words Production.procedureCall) (· ≠ .symbol .leftParen) bound := by
  rw [words_procedureCall]
  apply Reads.within
  apply reads_reference.bind _ fun _ _ _ _ => trivial
  intro ref
  have harguments : Reads
      (Outline.arguments expression >>= fun args => pure (Statement.call ref args))
      Ebnf.arguments Anything bound :=
    ((reads_arguments reads_expression).bind_still fun _ => still_pure _).mono (fun _ => id)
      (Nat.le_succ bound)
  exact (harguments.sees_bind ((starts_oneOf _).mul _) (still_pure _)).mono
    (fun _ hne => ⟨trivial, hne⟩) (Nat.le_refl bound)

/-! ### Statements inside statements -/

/-- What can follow a statement; an `else` only if the statement is closed. -/
def AfterStatement (closed : Bool) (kind : Kind) : Prop :=
  kind ∈ [.symbol .semicolon, .keyword .end_] ∨ (closed = true ∧ kind = .keyword .else_)
  deriving Decidable

theorem AfterStatement.of_forall {closed : Bool} {property : Kind → Prop}
    (h : ∀ kind ∈ [.symbol .semicolon, .keyword .end_, .keyword .else_], property kind)
    (kind : Kind) (hkind : AfterStatement closed kind) : property kind := by
  apply h
  rcases hkind with hkind | ⟨-, rfl⟩
  · exact List.mem_append_left [Kind.keyword .else_] hkind
  · decide

section

variable {statement : Reader Statement}

theorem reads_statementListOf
    (h : Reads statement (words Production.statement) (AfterStatement false) bound) :
    Reads (statementListOf statement) (words Production.statementList) (· = .keyword .end_)
      bound := by
  rw [words_statementList]
  apply Reads.within
  apply (h.separated (by decide)).mono _ (Nat.le_refl bound)
  rintro _ rfl
  decide

theorem reads_compoundOf
    (h : Reads statement (words Production.statement) (AfterStatement false) bound) :
    Reads (compoundOf statement) (words Production.compound) Anything (bound + 1) := by
  rw [words_compound]
  apply Reads.within
  apply still_currentLine.reads_bind
  intro line
  apply (reads_word .begin_).token_bind
  intro _
  apply (reads_statementListOf h).bind _ ((starts_oneOf _).leads (by decide))
  exact fun body => (reads_word .end_).bind_still fun _ => still_pure _

theorem sound_whileOf (h : Sound statement (words Production.statement)) :
    Sound (whileOf statement) (words Production.whileDo) := by
  rw [words_whileDo]
  apply Sound.within
  apply still_currentLine.sound_bind
  intro line
  apply (sound_word .while_).bind
  intro _
  apply (@reads_expression 0).sound.bind
  intro condition
  apply (sound_word .do_).bind
  intro _ kind
  exact (h kind).bind_still fun _ => still_pure _

theorem complete_whileOf {words : Language Kind} {follows : Kind → Prop}
    (h : Complete statement words follows bound) :
    Complete (whileOf statement) (oneOf [.keyword .while_] *
      (Ebnf.words Production.expression * (oneOf [.keyword .do_] * words))) follows
      (bound + 1) := by
  apply Complete.within
  apply still_currentLine.complete_bind
  intro line
  apply (reads_word .while_).complete.token_bind
  intro _
  apply reads_expression.complete.bind _ (((starts_oneOf _).mul _).leads (by decide))
  intro condition
  apply (reads_word .do_).complete.bind _ fun _ _ _ _ => trivial
  exact fun _ => h.bind_still fun _ => still_pure _

theorem sound_ifOf (h : Sound statement (words Production.statement)) :
    Sound (ifOf statement) (words Production.ifThenElse) := by
  rw [words_ifThenElse]
  apply Sound.within
  apply still_currentLine.sound_bind
  intro line
  apply (sound_word .if_).bind
  intro _
  apply (@reads_expression 0).sound.bind
  intro condition
  apply (sound_word .then_).bind
  intro _
  apply h.bind
  intro consequence
  apply Sound.sees_bind
  · apply Sound.mono _ fun _ => .inl
    apply (sound_word .else_).bind
    intro _ kind
    exact (h kind).bind_still fun _ => still_pure _
  · exact (still_pure _).sound.mono fun _ => .inr

/-- A closed consequence leaves the `else` that comes after it. -/
theorem complete_ifOf_else {words : Language Kind} {follows : Kind → Prop}
    (hconsequence : Complete statement (balanced true) (AfterStatement true) bound)
    (halternative : Complete statement words follows bound) :
    Complete (ifOf statement) (oneOf [.keyword .if_] *
      (Ebnf.words Production.expression * (oneOf [.keyword .then_] *
        (balanced true * (oneOf [.keyword .else_] * words))))) follows (bound + 1) := by
  apply Complete.within
  apply still_currentLine.complete_bind
  intro line
  apply (reads_word .if_).complete.token_bind
  intro _
  apply reads_expression.complete.bind _ (((starts_oneOf _).mul _).leads (by decide))
  intro condition
  apply (reads_word .then_).complete.bind _ fun _ _ _ _ => trivial
  intro _
  apply hconsequence.bind _ (((starts_oneOf _).mul _).leads (by decide))
  intro consequence
  apply Complete.sees_bind_of_starts ((starts_oneOf _).mul _)
  apply (reads_word .else_).complete.bind _ fun _ _ _ _ => trivial
  exact fun _ => halternative.bind_still fun _ => still_pure _

/-- Without an `else`, none may follow. -/
theorem complete_ifOf {words : Language Kind}
    (h : Complete statement words (AfterStatement false) bound) :
    Complete (ifOf statement) (oneOf [.keyword .if_] *
      (Ebnf.words Production.expression * (oneOf [.keyword .then_] * words)))
      (AfterStatement false) (bound + 1) := by
  apply Complete.within
  apply still_currentLine.complete_bind
  intro line
  apply (reads_word .if_).complete.token_bind
  intro _
  apply reads_expression.complete.bind _ (((starts_oneOf _).mul _).leads (by decide))
  intro condition
  apply (reads_word .then_).complete.bind _ fun _ _ _ _ => trivial
  intro _
  rw [← mul_one words]
  apply h.bind _ (leads_one fun _ => id)
  intro consequence
  apply Complete.sees_bind_of_ne
  · exact leads_one fun kind hkind heq => absurd (heq ▸ hkind) (by decide)
  · exact (still_pure _).reads.complete.of_anything _

end

/-! ### Statements -/

/-- The reader takes statements only, and every balanced statement. -/
structure ReadsStatements (statement : Reader Statement) (bound : Nat) : Prop where
  sound : Sound statement (words Production.statement)
  complete : ∀ closed, Complete statement (balanced closed) (AfterStatement closed) bound

/-- To take the balanced statements is to take them all. -/
theorem ReadsStatements.reads {statement : Reader Statement} (h : ReadsStatements statement bound) :
    Reads statement (words Production.statement) (AfterStatement false) bound :=
  ⟨h.sound, (h.complete false).mono_words fun _ => balanced_of_statement⟩

theorem sound_statementWithin_succ {depth : Nat}
    (h : ReadsStatements (statementWithin depth) depth) :
    Sound (statementWithin (depth + 1)) (words Production.statement) := by
  rw [words_statement]
  apply Sound.within
  apply Sound.current_bind
  intro token
  split
  · apply Sound.nextKind_bind
    intro next
    split
    · exact (@reads_assignment 0).sound.mono fun _ hword => .inl (.inl (.inl (.inl (.inl hword))))
    · exact (@reads_procedureCall 0).sound.mono fun _ hword => .inl (.inr hword)
  · exact (reads_compoundOf h.reads).sound.mono
      (fun _ hword => .inl (.inl (.inl (.inl (.inr hword))))) _
  · exact (sound_ifOf h.sound).mono (fun _ hword => .inl (.inl (.inl (.inr hword)))) _
  · exact (sound_whileOf h.sound).mono (fun _ hword => .inl (.inl (.inr hword))) _
  · exact (still_currentLine.sound_bind fun _ => (still_pure _).sound).mono
      (fun _ hword => .inr hword) _

/-- After the name in an assignment comes an index or the sign of assignment. -/
theorem leads_assigned (closed : Bool) :
    Leads (fun kind => kind = .symbol .assign ∨ kind = .symbol .leftBracket)
      ((oneOf [.symbol .leftBracket] * (words Production.expression *
        oneOf [.symbol .rightBracket]) + 1) * (oneOf [.symbol .assign] *
          words Production.expression)) (AfterStatement closed) := by
  have hassign : Leads (· = .symbol .assign) (oneOf [.symbol .assign] *
      words Production.expression) (AfterStatement closed) :=
    ((starts_oneOf _).mul _).leads (by decide)
  have hindex : Leads (fun kind => kind = .symbol .assign ∨ kind = .symbol .leftBracket)
      (oneOf [.symbol .leftBracket] * (words Production.expression *
        oneOf [.symbol .rightBracket]) + 1) (· = .symbol .assign) := by
    apply Leads.add
    · exact ((starts_oneOf _).mul _).leads (by decide)
    · exact leads_one fun _ => .inl
  exact hindex.mul hassign

/-- After the name in a procedure call comes neither. -/
theorem leads_called (closed : Bool) :
    Leads (fun kind => ¬(kind = .symbol .assign ∨ kind = .symbol .leftBracket))
      (Ebnf.arguments + 1) (AfterStatement closed) := by
  apply Leads.add
  · exact ((starts_oneOf _).mul _).leads (by decide)
  · exact leads_one (AfterStatement.of_forall (by decide))

theorem complete_statementWithin_succ {depth : Nat}
    (h : ReadsStatements (statementWithin depth) depth) (closed : Bool) :
    Complete (statementWithin (depth + 1)) (balanced closed) (AfterStatement closed)
      (depth + 1) := by
  apply Complete.within
  apply Complete.mono_words _ (balanced_le closed)
  refine .add (.add (.add (.add ?assignment ?compound) ?call) ?empty)
    (.add ?alternative (.add ?loop ?conditional))
  case assignment =>
    have hassignment : Complete assignment (words Production.assignment) (AfterStatement closed)
        (depth + 1) :=
      reads_assignment.complete.mono (AfterStatement.of_forall (by decide)) (Nat.le_refl _)
    rw [words_assignment, words_variableRef, mul_assoc] at hassignment ⊢
    apply Complete.name_bind
    intro name
    apply Complete.nextKind_bind (leads_assigned closed)
    intro next htest
    rw [if_pos htest]
    exact hassignment
  case compound =>
    have hcompound := (reads_compoundOf h.reads).complete.of_anything (AfterStatement closed)
    rw [words_compound] at hcompound ⊢
    exact Complete.keyword_bind hcompound
  case call =>
    have hcall : Complete procedureCall (words Production.procedureCall) (AfterStatement closed)
        (depth + 1) :=
      reads_procedureCall.complete.mono (AfterStatement.of_forall (by decide)) (Nat.le_refl _)
    rw [words_procedureCall] at hcall ⊢
    apply Complete.name_bind
    intro name
    apply Complete.nextKind_bind (leads_called closed)
    intro next htest
    rw [if_neg htest]
    exact hcall
  case empty =>
    have hnext : Leads (· ∉ [.name, .keyword .begin_, .keyword .if_, .keyword .while_]) 1
        (AfterStatement closed) := leads_one (AfterStatement.of_forall (by decide))
    apply Complete.current_bind hnext
    intro token htoken
    split
    case h_5 =>
      exact still_currentLine.complete_bind fun _ => (still_pure _).reads.complete.of_anything _
    all_goals simp [Token.kind] at htoken
  case alternative =>
    apply Complete.keyword_bind
    exact complete_ifOf_else (h.complete true) (h.complete closed)
  case loop =>
    apply Complete.keyword_bind
    exact complete_whileOf (h.complete closed)
  case conditional =>
    cases closed with
    | true => exact fun _ _ _ _ hfront => absurd hfront (Language.notMem_zero _)
    | false =>
        apply Complete.keyword_bind
        exact complete_ifOf (h.complete false)

theorem readsStatements_within (depth : Nat) : ReadsStatements (statementWithin depth) depth := by
  induction depth with
  | zero => exact ⟨sound_unexpected _ _, fun _ => Complete.zero _ _ _⟩
  | succ depth ih => exact ⟨sound_statementWithin_succ ih, complete_statementWithin_succ ih⟩

theorem reads_statementList :
    Reads statementList (words Production.statementList) (· = .keyword .end_) bound :=
  reads_of_depth fun depth => reads_statementListOf (readsStatements_within depth).reads

end Outline

end MiniPascal
