import MiniPascal.Proofs.Grammar.Programs

/-!
# What an error expects

A reader that fails has taken tokens that go on to a word of its language, with any of the
tokens that the error expects in the next place.  In a sequence this holds because what
was read before is a word, and because there is a word for what would come later.
-/

namespace MiniPascal

open Token (Kind)
open scoped Computability

/-! ### Languages with words -/

/-- The language has a word. -/
class HasWord (words : Language Kind) : Prop where
  exists_mem : ∃ word, word ∈ words

instance (kind : Kind) (others : List Kind) : HasWord (oneOf (kind :: others)) :=
  ⟨[kind], kind, List.mem_cons_self, rfl⟩

section

variable (words words' : Language Kind)

instance : HasWord words∗ :=
  ⟨[], Language.nil_mem_kstar words⟩

instance : HasWord (words + 1) :=
  ⟨[], .inr rfl⟩

instance [HasWord words] [HasWord words'] : HasWord (words * words') := by
  obtain ⟨word, hword⟩ : ∃ word, word ∈ words := HasWord.exists_mem
  obtain ⟨word', hword'⟩ : ∃ word, word ∈ words' := HasWord.exists_mem
  exact ⟨word ++ word', Language.append_mem_mul hword hword'⟩

theorem HasWord.mono {words words' : Language Kind} (h : HasWord words) (hwords : words ≤ words') :
    HasWord words' := by
  obtain ⟨word, hword⟩ := h.exists_mem
  exact ⟨word, hwords hword⟩

end

namespace Ebnf

instance : HasWord (oneOf constantKinds) :=
  inferInstanceAs (HasWord (oneOf [.number, .text, .name]))

instance : HasWord (words Production.factor) := by
  have hliteral : HasWord (oneOf [.number, .text]) := inferInstance
  rw [words_factor]
  exact hliteral.mono fun _ hword => .inl (.inl (.inl (.inl hword)))

instance : HasWord (words Production.term) := by
  rw [words_term]
  infer_instance

instance : HasWord (words Production.simpleExpr) := by
  rw [words_simpleExpr]
  exact HasWord.mono inferInstance fun _ => .inr

instance : HasWord (words Production.expression) := by
  rw [words_expression]
  infer_instance

instance : HasWord (words Production.type) := by
  have hname : HasWord (oneOf [.name]) := inferInstance
  rw [words_type]
  exact hname.mono fun _ hword => .inl (.inl (.inl hword))

instance : HasWord (words Production.statement) := by
  rw [words_statement]
  infer_instance

instance : HasWord (words Production.statementList) := by
  rw [words_statementList]
  infer_instance

instance : HasWord (words Production.block) := by
  rw [words_block]
  infer_instance

instance : HasWord arguments := by
  unfold arguments
  infer_instance

instance : HasWord (words Production.constDecl) := by
  rw [words_constDecl]
  infer_instance

instance : HasWord (words Production.typeDecl) := by
  rw [words_typeDecl]
  infer_instance

instance : HasWord (words Production.varDecl) := by
  rw [words_varDecl]
  infer_instance

instance : HasWord (words Production.paramDecl) := by
  rw [words_paramDecl]
  infer_instance

end Ebnf

namespace Outline

def Expectation.kinds : Expectation → List Kind
  | token kind => [kind]
  | constant => constantKinds
  | type => [.name, .keyword .array, .symbol .leftParen, .number, .text]
  | factor => Ebnf.factorKinds

namespace Reader

variable {α β : Type}

/-! ### Readers that fail -/

/-- Some tokens go on to a word of the language with each of the tokens that are expected
after them. -/
def GoesOn (front : List Kind) (expected : Expectation) (words : Language Kind) : Prop :=
  ∀ kind ∈ expected.kinds, ∃ back, front ++ kind :: back ∈ words

/-- At a token of a kind, with fewer tokens than a bound, what the reader takes before an
error goes on to a word with what the error expects. -/
def ViableAt (kind : Kind) (reader : Reader α) (words : Language Kind) (bound : Nat) : Prop :=
  ∀ cursor final error, headKind cursor.rest = kind → cursor.rest.length < bound →
    reader.run cursor = .error error final →
      ∃ front, cursor.rest = front ++ final.rest ∧ GoesOn (kinds front) error.expected words

/-- What the reader takes before an error goes on to a word with what the error expects. -/
def Viable (reader : Reader α) (words : Language Kind) (bound : Nat) : Prop :=
  ∀ kind, ViableAt kind reader words bound

/-- The reader never fails. -/
def Safe (reader : Reader α) : Prop :=
  ∀ cursor, ∃ value final, reader.run cursor = .ok value final

variable {words words' : Language Kind} {bound : Nat} {kind : Kind}
variable {reader first : Reader α} {next : α → Reader β}

theorem run_bind_eq_error_iff {cursor final : Cursor} {error : SyntaxError} :
    (first >>= next).run cursor = .error error final ↔
      first.run cursor = .error error final ∨
        ∃ value middle, first.run cursor = .ok value middle ∧
          (next value).run middle = .error error final := by
  change EStateM.bind first next cursor = _ ↔ _
  unfold EStateM.bind EStateM.run
  cases first cursor with
  | ok value middle => simp
  | error error middle => simp

theorem Safe.viable (h : Safe reader) (words : Language Kind) : Viable reader words bound := by
  intro _ cursor final error _ _ hrun
  obtain ⟨value, last, hok⟩ := h cursor
  cases hrun.symm.trans hok

theorem Safe.bind (h : Safe first) (hnext : ∀ value, Safe (next value)) :
    Safe (first >>= next) := by
  intro cursor
  obtain ⟨value, middle, hfirst⟩ := h cursor
  obtain ⟨result, final, hsecond⟩ := hnext value middle
  exact ⟨result, final, run_bind_eq_ok_iff.mpr ⟨value, middle, hfirst, hsecond⟩⟩

theorem Still.safe (h : Still reader) : Safe reader := by
  intro cursor
  obtain ⟨value, final, hrun, -⟩ := h cursor
  exact ⟨value, final, hrun⟩

theorem safe_pure (value : α) : Safe (pure value : Reader α) :=
  (still_pure value).safe

theorem safe_advance : Safe advance :=
  fun cursor => ⟨(), cursor.advance, rfl⟩

theorem ViableAt.mono (h : ViableAt kind reader words bound) (hwords : words ≤ words') :
    ViableAt kind reader words' bound := by
  intro cursor final error hkind hlength hrun
  obtain ⟨front, hrest, hfront⟩ := h cursor final error hkind hlength hrun
  refine ⟨front, hrest, fun kind hexpected => ?_⟩
  obtain ⟨back, hword⟩ := hfront kind hexpected
  exact ⟨back, hwords hword⟩

theorem Viable.mono (h : Viable reader words bound) (hwords : words ≤ words') :
    Viable reader words' bound :=
  fun kind => (h kind).mono hwords

/-- A reader that only fails expects what words of the language can begin with. -/
theorem viable_unexpected {expected : Expectation} (h : GoesOn [] expected words) :
    Viable (unexpected expected : Reader α) words bound := by
  intro _ cursor final error _ _ hrun
  cases hrun
  exact ⟨[], rfl, h⟩

/-! ### Sequences -/

/-- A sequence, when the words of its first reader have at least so many tokens. -/
theorem ViableAt.bind_of_length {taken low : Nat} [HasWord words']
    (h : ViableAt kind first words bound) (hsound : SoundAt kind first words)
    (hnext : ∀ value, Viable (next value) words' low)
    (htaken : ∀ word ∈ words, taken ≤ word.length) (hlow : bound ≤ low + taken) :
    ViableAt kind (first >>= next) (words * words') bound := by
  intro cursor final error hkind hlength hrun
  rcases run_bind_eq_error_iff.mp hrun with hfirst | ⟨value, middle, hfirst, hsecond⟩
  · obtain ⟨front, hrest, hfront⟩ := h cursor final error hkind hlength hfirst
    obtain ⟨last, hlast⟩ : ∃ word, word ∈ words' := HasWord.exists_mem
    refine ⟨front, hrest, fun kind hexpected => ?_⟩
    obtain ⟨back, hword⟩ := hfront kind hexpected
    refine ⟨back ++ last, ?_⟩
    rw [← List.cons_append, ← List.append_assoc]
    exact Language.append_mem_mul hword hlast
  · obtain ⟨front, hrest, hfront⟩ := hsound cursor middle value hkind hfirst
    have hlong := htaken _ hfront
    rw [hrest, List.length_append] at hlength
    rw [List.length_map] at hlong
    obtain ⟨more, hmiddle, hmore⟩ := hnext value _ middle final error rfl (by omega) hsecond
    refine ⟨front ++ more, ?_, fun kind hexpected => ?_⟩
    · rw [hrest, hmiddle, List.append_assoc]
    · obtain ⟨back, hword⟩ := hmore kind hexpected
      refine ⟨back, ?_⟩
      rw [kinds, List.map_append, List.append_assoc]
      exact Language.append_mem_mul hfront hword

theorem ViableAt.bind [HasWord words'] (h : ViableAt kind first words bound)
    (hsound : SoundAt kind first words) (hnext : ∀ value, Viable (next value) words' bound) :
    ViableAt kind (first >>= next) (words * words') bound :=
  h.bind_of_length hsound hnext (fun _ _ => Nat.zero_le _) (Nat.le_refl bound)

theorem Viable.bind [HasWord words'] (h : Viable first words bound) (hsound : Sound first words)
    (hnext : ∀ value, Viable (next value) words' bound) :
    Viable (first >>= next) (words * words') bound :=
  fun kind => (h kind).bind (hsound kind) hnext

/-- After a token there is one less. -/
theorem Viable.token_bind {starts : List Kind} [HasWord words']
    (h : Viable first (oneOf starts) (bound + 1)) (hsound : Sound first (oneOf starts))
    (hnext : ∀ value, Viable (next value) words' bound) :
    Viable (first >>= next) (oneOf starts * words') (bound + 1) := by
  have htaken : ∀ word ∈ oneOf starts, 1 ≤ word.length := by
    rintro _ ⟨_, -, rfl⟩
    exact Nat.le_refl 1
  exact fun kind => (h kind).bind_of_length (hsound kind) hnext htaken (Nat.le_refl _)

theorem Still.viable_bind (h : Still first) (hnext : ∀ value, Viable (next value) words bound) :
    Viable (first >>= next) words bound := by
  intro kind cursor final error hkind hlength hrun
  rcases run_bind_eq_error_iff.mp hrun with hfirst | ⟨value, middle, hfirst, hsecond⟩
  · obtain ⟨value, last, hok, -⟩ := h cursor
    cases hfirst.symm.trans hok
  · rw [← h.rest_eq hfirst] at hkind hlength ⊢
    exact hnext value kind middle final error hkind hlength hsecond

/-- What is made of a value does not fail. -/
theorem ViableAt.bind_safe (h : ViableAt kind first words bound)
    (hnext : ∀ value, Safe (next value)) : ViableAt kind (first >>= next) words bound := by
  intro cursor final error hkind hlength hrun
  rcases run_bind_eq_error_iff.mp hrun with hfirst | ⟨value, middle, hfirst, hsecond⟩
  · exact h cursor final error hkind hlength hfirst
  · obtain ⟨result, last, hok⟩ := hnext value middle
    cases hsecond.symm.trans hok

theorem Viable.bind_safe (h : Viable first words bound) (hnext : ∀ value, Safe (next value)) :
    Viable (first >>= next) words bound :=
  fun kind => (h kind).bind_safe hnext

theorem Viable.bind_pure (h : Viable first words bound) (result : α → β) :
    Viable (first >>= fun value => pure (result value)) words bound :=
  h.bind_safe fun value => safe_pure (result value)

theorem ViableAt.current_bind {body : Token → Reader α}
    (h : ∀ token : Token, token.kind = kind → ViableAt kind (body token) words bound) :
    ViableAt kind (current >>= body) words bound := by
  intro cursor final error hkind hlength hrun
  exact h cursor.current (cursor.kind_current.trans hkind) cursor final error hkind hlength hrun

theorem Viable.current_bind {body : Token → Reader α}
    (h : ∀ token : Token, ViableAt token.kind (body token) words bound) :
    Viable (current >>= body) words bound :=
  fun _ => ViableAt.current_bind fun token hkind => hkind ▸ h token

theorem still_current : Still current :=
  fun cursor => ⟨cursor.current, cursor, rfl, rfl⟩

theorem still_nextKind : Still nextKind :=
  fun cursor => ⟨cursor.nextKind, cursor, rfl, rfl⟩

theorem Viable.within (h : Viable reader words bound) (production : Production) :
    Viable (within production reader) words bound :=
  (still_record (.enter production)).viable_bind fun _ =>
    h.bind_safe fun value => (still_leave production value).safe

/-- More nesting than there are tokens is never needed. -/
theorem viable_of_depth {reader : Nat → Reader α} (h : ∀ depth, Viable (reader depth) words depth) :
    Viable (do reader ((← get).rest.length + 1)) words bound :=
  fun kind cursor final error hkind _ hrun =>
    h (cursor.rest.length + 1) kind cursor final error hkind (Nat.lt_succ_self _) hrun

/-! ### Tokens -/

theorem goesOn_oneOf {expected : Expectation} {kinds : List Kind}
    (h : ∀ kind ∈ expected.kinds, kind ∈ kinds) : GoesOn [] expected (oneOf kinds) :=
  fun kind hexpected => ⟨[], kind, h kind hexpected, rfl⟩

theorem exists_cons_mem_mul [HasWord words] {starts : List Kind} (h : kind ∈ starts) :
    ∃ back, kind :: back ∈ oneOf starts * words := by
  obtain ⟨word, hword⟩ : ∃ word, word ∈ words := HasWord.exists_mem
  have hkind : [kind] ∈ oneOf starts := ⟨kind, h, rfl⟩
  exact ⟨word, Language.append_mem_mul hkind hword⟩

theorem viable_expect (kind : Kind) : Viable (expect kind) (oneOf [kind]) bound := by
  apply still_current.viable_bind
  intro token
  split
  · exact safe_advance.viable _
  · exact viable_unexpected (goesOn_oneOf fun _ hkind => hkind)

theorem viable_mark (symbol : Symbol) : Viable (mark symbol) (oneOf [.symbol symbol]) bound :=
  viable_expect _

theorem viable_word (keyword : Keyword) :
    Viable (word keyword) (oneOf [.keyword keyword]) bound :=
  viable_expect _

theorem viable_takeName : Viable takeName (oneOf [.name]) bound := by
  apply still_current.viable_bind
  intro token
  split
  · exact (safe_advance.bind fun _ => safe_pure _).viable _
  · exact viable_unexpected (goesOn_oneOf fun _ hkind => hkind)

/-! ### Options and repetitions -/

theorem Viable.sees_bind {yes no : Reader α} (hyes : Viable yes words bound) (hno : Safe no) :
    Viable (sees kind >>= fun seen => if seen = true then yes else no) (words + 1) bound := by
  rw [Reader.sees_bind]
  apply still_current.viable_bind
  intro token
  split
  · exact hyes.mono fun _ => .inl
  · exact hno.viable _

theorem viable_atMost {begins : Token → Bool} {item : Reader α}
    (h : ∀ token, begins token = true → ViableAt token.kind item words bound)
    (hsound : Sound item words) (rounds : Nat) :
    Viable (atMost begins item rounds) words∗ bound := by
  induction rounds with
  | zero => exact (safe_pure []).viable _
  | succ rounds ih =>
      apply Viable.current_bind
      intro token
      split
      · next hbegins =>
          rw [← Language.one_add_self_mul_kstar_eq_kstar]
          apply ViableAt.mono _ fun _ => .inr
          exact (h token hbegins).bind (hsound token.kind) fun _ => ih.bind_pure _
      · exact (safe_pure []).viable _ _

theorem viable_many {begins : Token → Bool} {item : Reader α}
    (h : ∀ token, begins token = true → ViableAt token.kind item words bound)
    (hsound : Sound item words) : Viable (many begins item) words∗ bound :=
  fun kind cursor final error hkind hlength hrun =>
    viable_atMost h hsound cursor.rest.length kind cursor final error hkind hlength hrun

theorem Viable.many1 {begins : Token → Bool} {item : Reader α} (h : Viable item words bound)
    (hsound : Sound item words) : Viable (many1 begins item) (words * words∗) bound :=
  h.bind hsound fun _ => (viable_many (fun token _ => h token.kind) hsound).bind_pure _

theorem Viable.separated {symbol : Symbol} {item : Reader α} [HasWord words]
    (h : Viable item words bound) (hsound : Sound item words) :
    Viable (separated symbol item) (words * (oneOf [.symbol symbol] * words)∗) bound := by
  have hmore : Viable (mark symbol >>= fun _ => item) (oneOf [.symbol symbol] * words) bound :=
    (viable_mark symbol).bind (@reads_mark 0 symbol).sound fun _ => h
  have hmoreSound := (@reads_mark 0 symbol).sound.bind fun _ => hsound
  exact h.bind hsound fun _ =>
    (viable_many (fun token _ => hmore token.kind) hmoreSound).bind_pure _

section

variable {operator? : Token → Option β} {operators : List Kind}

/-- An operator, or the lack of one, tells which of two readers goes on. -/
theorem viable_operator_or [HasWord words] {body : Token → Reader α} {yes : β → Reader α}
    {no : Reader α} (hyes : ∀ operator, Viable (yes operator) words bound)
    (hno : Viable no words' bound) (h : Operators operator? operators)
    (hsome : ∀ {token operator}, operator? token = some operator →
      body token = advance >>= fun _ => yes operator)
    (hnone : ∀ {token}, operator? token = none → body token = no) :
    Viable (current >>= body) (oneOf operators * words + words') bound := by
  apply Viable.current_bind
  intro token
  cases hcase : operator? token with
  | some operator =>
      rw [hsome hcase]
      apply ViableAt.mono _ fun _ => .inl
      exact (safe_advance.viable _ token.kind).bind (h.soundAt_advance hcase) fun _ => hyes operator
  | none =>
      rw [hnone hcase]
      exact (hno token.kind).mono fun _ => .inr

theorem Viable.operands [HasWord words] {item : Reader α} (h : Viable item words bound)
    (hsound : Sound item words) (hoperators : Operators operator? operators) :
    Viable (operands operator? item) (oneOf operators * words)∗ bound := by
  have heq : Reader.operands operator? item =
      Reader.many (fun token => (operator? token).isSome) (Reader.operand operator? item) :=
    congrArg (fun next => get >>= next) (funext fun _ => operandsAtMost_eq operator? item _)
  have hreads : Reads item words Anything 0 := ⟨hsound, Complete.zero _ _ _⟩
  rw [heq]
  refine viable_many (fun token hbegins => ?_) (hreads.operand hoperators).sound
  apply ViableAt.current_bind
  intro other hother
  have hsame : (operator? other).isSome = true := by
    rw [hoperators.isSome_iff, hother]
    exact (hoperators.isSome_iff token).mp hbegins
  obtain ⟨operator, hsome⟩ := Option.isSome_iff_exists.mp hsame
  rw [hsome, ← hother]
  exact (safe_advance.viable _ other.kind).bind (hoperators.soundAt_advance hsome)
    fun _ => h.bind_pure _

end

end Reader

end Outline

end MiniPascal
