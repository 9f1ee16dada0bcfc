import MiniPascal.Proofs.Grammar.Reading

/-!
# Readers of options and repetitions

A token decides whether an optional part is there and whether a repetition goes on.  So
the token that follows must not be one of those that begin the part.  A repetition never
runs out of rounds, since every item takes a token.
-/

namespace MiniPascal.Outline.Reader

open Token (Kind)
open scoped Computability

variable {α β : Type} {words : Language Kind} {follows : Kind → Prop} {bound : Nat}
  {starts : List Kind} {kind : Kind}

/-- The tokens that begin an item are those of some kinds. -/
def Tests (begins : Token → Bool) (starts : List Kind) : Prop :=
  ∀ token, begins token = true ↔ token.kind ∈ starts

theorem tests_kind (kind : Kind) : Tests (·.kind == kind) [kind] :=
  fun token => by rw [beq_iff_eq, List.mem_singleton]

/-! ### Options -/

theorem sees_bind (kind : Kind) (next : Bool → Reader α) :
    sees kind >>= next = current >>= fun token => next (token.kind == kind) := rfl

theorem Sound.sees_bind {yes no : Reader α} (hyes : Sound yes words) (hno : Sound no words) :
    Sound (sees kind >>= fun seen => if seen = true then yes else no) words := by
  rw [Reader.sees_bind]
  apply Sound.current_bind
  intro token
  split
  · exact hyes token.kind
  · exact hno token.kind

/-- A word that begins with the token is for the first reader. -/
theorem Complete.sees_bind_of_starts {yes no : Reader α} (hstarts : Starts [kind] words)
    (h : Complete yes words follows bound) :
    Complete (sees kind >>= fun seen => if seen = true then yes else no) words follows bound := by
  rw [Reader.sees_bind]
  apply Complete.current_bind_starts hstarts
  intro token htoken
  rw [if_pos (beq_iff_eq.mpr (List.mem_singleton.mp htoken))]
  exact h

/-- A word that does not begin with the token, nor has it after it, is for the other. -/
theorem Complete.sees_bind_of_ne {yes no : Reader α} (hleads : Leads (· ≠ kind) words follows)
    (h : Complete no words follows bound) :
    Complete (sees kind >>= fun seen => if seen = true then yes else no) words follows bound := by
  rw [Reader.sees_bind]
  apply Complete.current_bind hleads
  intro token htoken
  rw [if_neg (beq_iff_eq.not.mpr htoken)]
  exact h

theorem Reads.sees_bind {yes no : Reader α} (h : Reads yes words follows bound)
    (hstarts : Starts [kind] words) (hno : Still no) :
    Reads (sees kind >>= fun seen => if seen = true then yes else no) (words + 1)
      (fun next => follows next ∧ next ≠ kind) bound where
  sound := (h.sound.mono fun _ => .inl).sees_bind
    (hno.sound.mono fun _ => .inr)
  complete := by
    apply Complete.add
    · exact (h.complete.mono (fun _ => And.left) (Nat.le_refl bound)).sees_bind_of_starts hstarts
    · apply Complete.sees_bind_of_ne (leads_one fun _ => And.right)
      exact hno.reads.complete.of_anything _

/-! ### Repetitions -/

theorem sound_atMost {begins : Token → Bool} {item : Reader α} (h : Sound item words)
    (rounds : Nat) : Sound (atMost begins item rounds) words∗ := by
  induction rounds with
  | zero =>
      rw [← Language.one_add_self_mul_kstar_eq_kstar]
      exact (still_pure []).sound.mono fun _ => .inl
  | succ rounds ih =>
      rw [← Language.one_add_self_mul_kstar_eq_kstar]
      apply Sound.current_bind
      intro token
      split
      · apply SoundAt.mono _ fun _ => .inr
        exact (h token.kind).bind fun _ kind => (ih kind).bind_still fun _ => still_pure _
      · exact (still_pure []).sound.mono (fun _ => .inl) token.kind

/-- Each round takes a token, so a word has no more items than tokens. -/
theorem complete_atMost {begins : Token → Bool} {item : Reader α}
    (h : Complete item words follows bound) (hbegins : Tests begins starts)
    (hstarts : Starts starts words) (hitem : ∀ kind ∈ starts, follows kind) {rounds : Nat}
    (hrounds : bound ≤ rounds + 1) :
    Complete (atMost begins item rounds) words∗ (fun next => follows next ∧ next ∉ starts)
      bound := by
  induction rounds generalizing bound with
  | zero =>
      intro cursor front back hrest _ _ hlength
      obtain rfl : front = [] := List.eq_nil_of_length_eq_zero (by omega)
      exact ⟨[], cursor, rfl, hrest⟩
  | succ rounds ih =>
      rw [← Language.one_add_self_mul_kstar_eq_kstar]
      apply Complete.add
      · apply Complete.current_bind (leads_one fun _ => And.right)
        intro token htoken
        rw [if_neg fun htrue => htoken ((hbegins token).mp htrue)]
        exact (still_pure []).reads.complete.of_anything _
      · apply Complete.current_bind_starts (hstarts.mul _)
        intro token htoken
        rw [if_pos ((hbegins token).mpr htoken)]
        have hless : bound - 1 ≤ rounds + 1 := by omega
        have hrest := ih (h.mono (fun _ => id) (Nat.sub_le bound 1)) hless
        apply h.bind_of_length fun _ => hrest.bind_still fun _ => still_pure _
        · exact hstarts.leads_kstar hitem fun _ => And.left
        · intro word hword word' _ hlength
          have := List.length_pos_of_ne_nil (hstarts.ne_nil hword)
          omega

theorem Reads.many {begins : Token → Bool} {item : Reader α}
    (h : Reads item words follows bound) (hbegins : Tests begins starts)
    (hstarts : Starts starts words) (hitem : ∀ kind ∈ starts, follows kind) :
    Reads (many begins item) words∗ (fun next => follows next ∧ next ∉ starts) bound where
  sound := fun kind cursor final value hkind hrun =>
    sound_atMost h.sound cursor.rest.length kind cursor final value hkind hrun
  complete := by
    intro cursor front back hrest hfront hback hlength
    have hfew : front.length < cursor.rest.length + 1 := by
      rw [hrest, List.length_append]
      omega
    have hitems := complete_atMost
      (h.complete.mono (fun _ => id) (Nat.min_le_left bound (cursor.rest.length + 1))) hbegins
      hstarts hitem (Nat.min_le_right _ _)
    exact hitems cursor front back hrest hfront hback (by omega)

theorem Reads.many1 {begins : Token → Bool} {item : Reader α}
    (h : Reads item words follows bound) (hbegins : Tests begins starts)
    (hstarts : Starts starts words) (hitem : ∀ kind ∈ starts, follows kind) :
    Reads (many1 begins item) (words * words∗) (fun next => follows next ∧ next ∉ starts)
      bound := by
  apply h.bind fun _ => (h.many hbegins hstarts hitem).bind_still fun _ => still_pure _
  exact hstarts.leads_kstar hitem fun _ => And.left

theorem Reads.separated {symbol : Symbol} {item : Reader α}
    (h : Reads item words follows bound) (hsymbol : follows (.symbol symbol)) :
    Reads (separated symbol item) (words * (oneOf [.symbol symbol] * words)∗)
      (fun next => follows next ∧ next ∉ [.symbol symbol]) bound := by
  have hmore : Reads (mark symbol >>= fun _ => item) (oneOf [.symbol symbol] * words) follows
      bound := (reads_mark symbol).bind (fun _ => h) fun _ _ _ _ => trivial
  have hstarts := (starts_oneOf [.symbol symbol]).mul words
  have hitem : ∀ kind ∈ [Kind.symbol symbol], follows kind := by simpa using hsymbol
  apply h.bind fun _ => (hmore.many (tests_kind _) hstarts hitem).bind_still fun _ => still_pure _
  exact hstarts.leads_kstar hitem fun _ => And.left

/-! ### Operators -/

/-- The operators are the tokens of some kinds. -/
structure Operators (operator? : Token → Option β) (operators : List Kind) : Prop where
  isSome_iff : ∀ token, (operator? token).isSome = true ↔ token.kind ∈ operators
  endOfFile_notMem : .endOfFile ∉ operators

section

variable {operator? : Token → Option β} {operators : List Kind}

theorem Operators.soundAt_advance (h : Operators operator? operators) {token : Token}
    {operator : β} (hsome : operator? token = some operator) :
    SoundAt token.kind advance (oneOf operators) :=
  Reader.soundAt_advance ((h.isSome_iff token).mp (Option.isSome_of_eq_some hsome))
    h.endOfFile_notMem

/-- An operator, or the lack of one, tells which of two readers goes on. -/
theorem Reads.operator_or {words' : Language Kind} {body : Token → Reader α}
    {yes : β → Reader α} {no : Reader α}
    (hyes : ∀ operator, Reads (yes operator) words follows bound)
    (hno : Reads no words' follows bound) (h : Operators operator? operators)
    (hleads : Leads (· ∉ operators) words' follows)
    (hsome : ∀ {token operator}, operator? token = some operator →
      body token = advance >>= fun _ => yes operator)
    (hnone : ∀ {token}, operator? token = none → body token = no) :
    Reads (current >>= body) (oneOf operators * words + words') follows bound where
  sound := by
    apply Sound.current_bind
    intro token
    cases hcase : operator? token with
    | some operator =>
        rw [hsome hcase]
        apply SoundAt.mono _ fun _ => .inl
        exact (h.soundAt_advance hcase).bind fun _ => (hyes operator).sound
    | none =>
        rw [hnone hcase]
        exact (hno.sound token.kind).mono fun _ => .inr
  complete := by
    apply Complete.add
    · apply Complete.current_bind_starts ((starts_oneOf operators).mul words)
      intro token htoken
      obtain ⟨operator, hcase⟩ := Option.isSome_iff_exists.mp ((h.isSome_iff token).mpr htoken)
      rw [hsome hcase]
      exact (complete_advance operators).bind (fun _ => (hyes operator).complete)
        fun _ _ _ _ => trivial
    · apply Complete.current_bind hleads
      intro token htoken
      have hcase : operator? token = none :=
        Option.not_isSome_iff_eq_none.mp ((h.isSome_iff token).not.mpr htoken)
      rw [hnone hcase]
      exact hno.complete

/-- An operator and the operand after it. -/
def operand (operator? : Token → Option β) (item : Reader α) : Reader (β × α) := do
  match operator? (← current) with
  | some operator => do
    advance
    return (operator, ← item)
  | none => unexpected .factor

theorem run_operand_bind {γ : Type} {item : Reader α} {next : β × α → Reader γ}
    {cursor : Cursor} {operator : β} (h : operator? cursor.current = some operator) :
    (operand operator? item >>= next).run cursor =
      (advance >>= fun _ => item >>= fun value => next (operator, value)).run cursor := by
  rw [operand, bind_assoc, run_current_bind, h]
  simp only [bind_assoc, pure_bind]

/-- Operands are items that begin with an operator. -/
theorem operandsAtMost_eq (operator? : Token → Option β) (item : Reader α) (rounds : Nat) :
    operandsAtMost operator? item rounds =
      atMost (fun token => (operator? token).isSome) (operand operator? item) rounds := by
  induction rounds with
  | zero => rfl
  | succ rounds ih =>
      funext cursor
      change (operandsAtMost operator? item (rounds + 1)).run cursor =
        (atMost _ (operand operator? item) (rounds + 1)).run cursor
      rw [operandsAtMost, atMost, run_current_bind, run_current_bind, ih]
      cases h : operator? cursor.current with
      | none => rfl
      | some operator =>
          rw [Option.isSome_some, if_pos rfl, run_operand_bind h]

theorem Reads.operand {item : Reader α} (h : Reads item words follows bound)
    (hoperators : Operators operator? operators) :
    Reads (operand operator? item) (oneOf operators * words) follows bound := by
  have hno : Reads (unexpected .factor : Reader (β × α)) 0 follows bound :=
    ⟨sound_unexpected _ _, fun _ _ _ _ hfront => absurd hfront (Language.notMem_zero _)⟩
  rw [← add_zero (oneOf operators * words)]
  exact Reads.operator_or (fun operator => h.bind_still fun value => still_pure (operator, value))
    hno hoperators (fun word hword => absurd hword (Language.notMem_zero word))
    (fun hsome => by rw [hsome]) (fun hnone => by rw [hnone])

theorem Reads.operands {item : Reader α} (h : Reads item words follows bound)
    (hoperators : Operators operator? operators) (hitem : ∀ kind ∈ operators, follows kind) :
    Reads (operands operator? item) (oneOf operators * words)∗
      (fun next => follows next ∧ next ∉ operators) bound := by
  have heq : Reader.operands operator? item =
      Reader.many (fun token => (operator? token).isSome) (Reader.operand operator? item) :=
    congrArg (fun next => get >>= next) (funext fun _ => operandsAtMost_eq operator? item _)
  rw [heq]
  exact (h.operand hoperators).many hoperators.isSome_iff ((starts_oneOf operators).mul words) hitem

end

end MiniPascal.Outline.Reader
