import MiniPascal.Proofs.Grammar.Courses
import MiniPascal.Proofs.Grammar.Locality
import MiniPascal.Proofs.Grammar.Viable

/-!
# Readers that follow a course

A reader follows a course if it succeeds only on words of the course and fails only where
the course halts.  What it records goes along: the events of a success are well nested, and
those of a failure leave open the productions on the path to the halt.  Readers that bound
their nesting follow a course on fewer tokens than the bound, so that they never run out.
-/

namespace MiniPascal

open Token (Kind)

/-! ### Nested events -/

/-- Every production that is entered is left, those inside it before. -/
inductive WellNested : List TraceEvent → Prop
  | nil : WellNested []
  | pair {production : Production} {inner rest : List TraceEvent} (h : WellNested inner)
      (h' : WellNested rest) :
      WellNested (.enter production :: inner ++ .leave production :: rest)

/-- Of the productions that are entered, those on a path are not left, the outermost first,
and all others are, those inside before. -/
inductive LeavesOpen : List Production → List TraceEvent → Prop
  | closed {events : List TraceEvent} (h : WellNested events) : LeavesOpen [] events
  | opened {production : Production} {path : List Production} {front inner : List TraceEvent}
      (h : WellNested front) (h' : LeavesOpen path inner) :
      LeavesOpen (production :: path) (front ++ .enter production :: inner)

section

variable {events events' : List TraceEvent} {path : List Production}

theorem WellNested.append (h : WellNested events) (h' : WellNested events') :
    WellNested (events ++ events') := by
  induction h with
  | nil => exact h'
  | pair inner _ _ ih =>
      rw [List.append_assoc, List.cons_append]
      exact .pair inner ih

theorem WellNested.within (h : WellNested events) (production : Production) :
    WellNested (.enter production :: events ++ [.leave production]) :=
  .pair h .nil

theorem LeavesOpen.append (h : WellNested events) (h' : LeavesOpen path events') :
    LeavesOpen path (events ++ events') := by
  cases h' with
  | closed h' => exact .closed (h.append h')
  | opened front inner =>
      rw [← List.append_assoc]
      exact .opened (h.append front) inner

end

namespace Outline

/-! ### Outcomes -/

/-- The same place after an event. -/
def Cursor.record (event : TraceEvent) (cursor : Cursor) : Cursor :=
  { cursor with events := event :: cursor.events }

/-- Between two places some tokens are taken, and some events are recorded. -/
structure Cursor.Passes (cursor : Cursor) (taken : List Located) (events : List TraceEvent)
    (final : Cursor) : Prop where
  rest : cursor.rest = taken ++ final.rest
  trace : final.events.reverse = cursor.events.reverse ++ events

namespace Cursor

variable {cursor middle final : Cursor} {taken more : List Located}
  {events later : List TraceEvent}

theorem Passes.refl (cursor : Cursor) : cursor.Passes [] [] cursor :=
  ⟨rfl, (List.append_nil _).symm⟩

theorem Passes.trans (h : cursor.Passes taken events middle)
    (h' : middle.Passes more later final) :
    cursor.Passes (taken ++ more) (events ++ later) final where
  rest := by rw [h.rest, h'.rest, List.append_assoc]
  trace := by rw [h'.trace, h.trace, List.append_assoc]

/-- The events of a production stand between those of entering and leaving it. -/
theorem Passes.within {production : Production}
    (h : (cursor.record (.enter production)).Passes taken events final) :
    cursor.Passes taken (.enter production :: events ++ [.leave production])
      (final.record (.leave production)) where
  rest := h.rest
  trace := by
    change (TraceEvent.leave production :: final.events).reverse = _
    rw [List.reverse_cons, h.trace, record, List.reverse_cons]
    simp only [List.append_assoc, List.cons_append, List.nil_append]

theorem Passes.enter {production : Production}
    (h : (cursor.record (.enter production)).Passes taken events final) :
    cursor.Passes taken (.enter production :: events) final where
  rest := h.rest
  trace := by
    rw [h.trace, record, List.reverse_cons, List.append_assoc, List.singleton_append]

end Cursor

namespace Reader

variable {α β : Type}

/-- The outcome of a reader at a place keeps to a course. -/
inductive KeepsTo (course : Course) (cursor : Cursor) :
    EStateM.Result SyntaxError Cursor α → Prop
  | ok {value : α} {final : Cursor} {taken : List Located} {events : List TraceEvent}
      (passes : cursor.Passes taken events final) (words : kinds taken ∈ course.words)
      (nested : WellNested events) : KeepsTo course cursor (.ok value final)
  | error {error : SyntaxError} {final : Cursor} {taken : List Located}
      {events : List TraceEvent} {path : List Production}
      (passes : cursor.Passes taken events final)
      (halts : kinds taken ∈ course.halts path error.expected)
      (opened : LeavesOpen path events) : KeepsTo course cursor (.error error final)

/-- At a token of a kind, with fewer tokens than a bound, the reader keeps to a course. -/
def FollowsAt (kind : Kind) (reader : Reader α) (course : Course) (bound : Nat) : Prop :=
  ∀ cursor, headKind cursor.rest = kind → cursor.rest.length < bound →
    KeepsTo course cursor (reader.run cursor)

/-- With fewer tokens than a bound, the reader keeps to a course. -/
def Follows (reader : Reader α) (course : Course) (bound : Nat) : Prop :=
  ∀ kind, FollowsAt kind reader course bound

/-- A step that neither takes a token nor records an event. -/
def Idle (reader : Reader α) : Prop :=
  ∀ cursor, ∃ value final, reader.run cursor = .ok value final ∧ cursor.Passes [] [] final

variable {course course' : Course} {bound : Nat} {kind : Kind}
variable {cursor middle : Cursor} {reader first : Reader α} {next : α → Reader β}
variable {outcome : EStateM.Result SyntaxError Cursor α}

theorem KeepsTo.mono (h : KeepsTo course cursor outcome) (hcourse : course ≤ course') :
    KeepsTo course' cursor outcome := by
  cases h with
  | ok passes words nested => exact .ok passes (hcourse.1 words) nested
  | error passes halts opened => exact .error passes (hcourse.2 _ _ halts) opened

/-- What comes after the words of a course keeps to the product. -/
theorem KeepsTo.after {taken : List Located} {events : List TraceEvent}
    (h : KeepsTo course' middle outcome) (passes : cursor.Passes taken events middle)
    (words : kinds taken ∈ course.words) (nested : WellNested events) :
    KeepsTo (course * course') cursor outcome := by
  cases h with
  | ok passes' words' nested' =>
      apply KeepsTo.ok (passes.trans passes') _ (nested.append nested')
      rw [kinds, List.map_append]
      exact Language.append_mem_mul words words'
  | error passes' halts opened =>
      apply KeepsTo.error (passes.trans passes') _ (opened.append nested)
      rw [kinds, List.map_append, Course.mem_halts_mul]
      exact .inr ⟨_, words, _, halts, rfl⟩

theorem KeepsTo.of_passes (h : KeepsTo course middle outcome)
    (passes : cursor.Passes [] [] middle) : KeepsTo course cursor outcome := by
  cases h with
  | ok passes' words nested => exact .ok (passes.trans passes') words nested
  | error passes' halts opened => exact .error (passes.trans passes') halts opened

theorem FollowsAt.mono (h : FollowsAt kind reader course bound) (hcourse : course ≤ course') :
    FollowsAt kind reader course' bound :=
  fun cursor hkind hlength => (h cursor hkind hlength).mono hcourse

theorem Follows.mono (h : Follows reader course bound) (hcourse : course ≤ course') :
    Follows reader course' bound :=
  fun kind => (h kind).mono hcourse

theorem Follows.left {left right : Ebnf} (h : Follows reader left.course bound) :
    Follows reader (left ||| right).course bound :=
  h.mono Ebnf.course_le_or_left

theorem Follows.right {left right : Ebnf} (h : Follows reader right.course bound) :
    Follows reader (left ||| right).course bound :=
  h.mono Ebnf.course_le_or_right

/-- There are no fewer tokens than none. -/
theorem follows_zero (reader : Reader α) (course : Course) : Follows reader course 0 :=
  fun _ _ _ hlength => absurd hlength (Nat.not_lt_zero _)

/-- More nesting than there are tokens is never needed. -/
theorem follows_of_depth {reader : Nat → Reader α}
    (h : ∀ depth, Follows (reader depth) course depth) :
    Follows (do reader ((← get).rest.length + 1)) course bound :=
  fun kind cursor hkind _ => h (cursor.rest.length + 1) kind cursor hkind (Nat.lt_succ_self _)

theorem followsAt_unexpected {expected : Expectation} (h : [] ∈ course.halts [] expected) :
    FollowsAt kind (unexpected expected : Reader α) course bound :=
  fun cursor _ _ => .error (.refl cursor) h (.closed .nil)

/-! ### Steps without tokens -/

theorem idle_pure (value : α) : Idle (pure value : Reader α) :=
  fun cursor => ⟨value, cursor, rfl, .refl cursor⟩

theorem idle_current : Idle current :=
  fun cursor => ⟨cursor.current, cursor, rfl, .refl cursor⟩

theorem idle_currentLine : Idle currentLine :=
  fun cursor => ⟨cursor.line, cursor, rfl, .refl cursor⟩

theorem idle_nextKind : Idle nextKind :=
  fun cursor => ⟨cursor.nextKind, cursor, rfl, .refl cursor⟩

theorem Idle.followsAt (h : Idle reader) (hempty : [] ∈ course.words) :
    FollowsAt kind reader course bound := by
  intro cursor _ _
  obtain ⟨value, final, hrun, passes⟩ := h cursor
  rw [hrun]
  exact .ok passes hempty .nil

theorem Idle.bind (h : Idle first) (hnext : ∀ value, Follows (next value) course bound) :
    Follows (first >>= next) course bound := by
  intro kind cursor _ hlength
  obtain ⟨value, middle, hrun, passes⟩ := h cursor
  have hrest : cursor.rest = middle.rest := passes.rest
  rw [run_bind_of_ok hrun]
  exact (hnext value _ middle rfl (hrest ▸ hlength)).of_passes passes

/-! ### Sequences -/

theorem run_bind_of_error {error : SyntaxError} {final : Cursor}
    (h : first.run cursor = .error error final) :
    (first >>= next).run cursor = .error error final :=
  run_bind_eq_error_iff.mpr (.inl h)

/-- A sequence keeps to a course that halts where its first reader does, if from there on
it keeps to it. -/
theorem KeepsTo.bind (h : KeepsTo course cursor (first.run cursor))
    (hhalts : ∀ path expected, course.halts path expected ≤ course'.halts path expected)
    (hnext : ∀ value middle taken events, cursor.Passes taken events middle →
      kinds taken ∈ course.words → WellNested events →
        KeepsTo course' cursor ((next value).run middle)) :
    KeepsTo course' cursor ((first >>= next).run cursor) := by
  cases hrun : first.run cursor with
  | error error final =>
      rw [run_bind_of_error hrun]
      rw [hrun] at h
      cases h with
      | error passes halts opened => exact .error passes (hhalts _ _ halts) opened
  | ok value middle =>
      rw [run_bind_of_ok hrun]
      rw [hrun] at h
      cases h with
      | ok passes words nested => exact hnext value middle _ _ passes words nested

/-- A sequence, when the words of its first course have at least so many tokens. -/
theorem FollowsAt.bind_of_length {fewest low : Nat} (h : FollowsAt kind first course bound)
    (hnext : ∀ value, Follows (next value) course' low)
    (hfewest : ∀ word ∈ course.words, fewest ≤ word.length) (hlow : bound ≤ low + fewest) :
    FollowsAt kind (first >>= next) (course * course') bound := by
  intro cursor hkind hlength
  refine (h cursor hkind hlength).bind (fun _ _ _ => Or.inl) ?_
  intro value middle taken events passes words nested
  have hlong := hfewest _ words
  rw [List.length_map] at hlong
  rw [passes.rest, List.length_append] at hlength
  exact (hnext value _ middle rfl (by omega)).after passes words nested

theorem FollowsAt.bind (h : FollowsAt kind first course bound)
    (hnext : ∀ value, Follows (next value) course' bound) :
    FollowsAt kind (first >>= next) (course * course') bound :=
  h.bind_of_length hnext (fun _ _ => Nat.zero_le _) (Nat.le_refl bound)

theorem Follows.bind (h : Follows first course bound)
    (hnext : ∀ value, Follows (next value) course' bound) :
    Follows (first >>= next) (course * course') bound :=
  fun kind => (h kind).bind hnext

/-- After something that is not empty there is a token less. -/
theorem Follows.token_bind {rule : Ebnf} (h : Follows first rule.course (bound + 1))
    (hempty : ¬rule.Derives []) (hnext : ∀ value, Follows (next value) course' bound) :
    Follows (first >>= next) (rule.course * course') (bound + 1) := by
  have hfewest : ∀ word ∈ rule.course.words, 1 ≤ word.length := by
    rintro (_ | ⟨kind, word⟩) hword
    · exact absurd hword hempty
    · exact Nat.le_add_left 1 word.length
  exact fun kind => (h kind).bind_of_length hnext hfewest (Nat.le_refl _)

theorem FollowsAt.bind_idle (h : FollowsAt kind first course bound)
    (hnext : ∀ value, Idle (next value)) : FollowsAt kind (first >>= next) course bound := by
  intro cursor hkind hlength
  refine (h cursor hkind hlength).bind (fun _ _ _ => id) ?_
  intro value middle taken events passes words nested
  obtain ⟨result, final, hsecond, passes'⟩ := hnext value middle
  have hpasses := passes.trans passes'
  rw [List.append_nil, List.append_nil] at hpasses
  rw [hsecond]
  exact .ok hpasses words nested

theorem Follows.bind_idle (h : Follows first course bound) (hnext : ∀ value, Idle (next value)) :
    Follows (first >>= next) course bound :=
  fun kind => (h kind).bind_idle hnext

theorem Follows.bind_pure (h : Follows first course bound) (result : α → β) :
    Follows (first >>= fun value => pure (result value)) course bound :=
  h.bind_idle fun value => idle_pure (result value)

theorem FollowsAt.current_bind {body : Token → Reader α}
    (h : ∀ token : Token, token.kind = kind → FollowsAt kind (body token) course bound) :
    FollowsAt kind (current >>= body) course bound := by
  intro cursor hkind hlength
  exact h cursor.current (cursor.kind_current.trans hkind) cursor hkind hlength

theorem Follows.current_bind {body : Token → Reader α}
    (h : ∀ token : Token, FollowsAt token.kind (body token) course bound) :
    Follows (current >>= body) course bound :=
  fun _ => FollowsAt.current_bind fun token hkind => hkind ▸ h token

/-! ### Productions -/

/-- Only a production that is read to its end is left. -/
theorem run_within (production : Production) (body : Reader α) (cursor : Cursor) :
    (within production body).run cursor =
      match body.run (cursor.record (.enter production)) with
      | .ok value final => .ok value (final.record (.leave production))
      | .error error final => .error error final := by
  have hbody : (within production body).run cursor =
      (body >>= fun value => do
        modify (Cursor.record (.leave production))
        return value).run (cursor.record (.enter production)) := rfl
  rw [hbody]
  split
  · next hrun => rw [run_bind_of_ok hrun]; rfl
  · next hrun => rw [run_bind_of_error hrun]

theorem follows_within {production : Production}
    (h : Follows reader (.inside production) bound) :
    Follows (within production reader) (Ebnf.course production) bound := by
  intro kind cursor hkind hlength
  have hbody := h kind (cursor.record (.enter production)) hkind hlength
  rw [run_within]
  revert hbody
  generalize reader.run (cursor.record (.enter production)) = outcome
  intro hbody
  cases hbody with
  | ok passes words nested => exact .ok passes.within (.production words) (nested.within production)
  | error passes halts opened => exact .error passes.enter halts (.opened .nil opened)

theorem Follows.within {production : Production}
    (h : Follows reader production.rule.course bound) :
    Follows (within production reader) (Ebnf.course production) bound :=
  follows_within (h.mono (Ebnf.course_rule_le_inside production))

/-! ### Tokens -/

/-- The current token is taken, if it is what the rule derives. -/
theorem followsAt_advance {rule : Ebnf} (h : rule.Derives [kind]) :
    FollowsAt kind advance rule.course bound := by
  intro cursor hkind _
  match hrest : cursor.rest with
  | [] =>
      rw [hrest] at hkind
      rw [← hkind] at h
      exact absurd List.mem_cons_self h.endOfFile_notMem
  | first :: rest =>
      rw [hrest] at hkind
      have hpasses : cursor.Passes [first] [] cursor.advance :=
        ⟨by rw [Cursor.rest_advance, hrest]; rfl, by rw [Cursor.events_advance, List.append_nil]⟩
      have hfirst : kinds [first] = [kind] := congrArg (fun kind => [kind]) hkind
      have hword : kinds [first] ∈ rule.course.words := hfirst ▸ h
      exact .ok hpasses hword .nil

theorem follows_expect {rule : Ebnf} (h : rule.Derives [kind])
    (hhalts : rule.Halts [] [] (.token kind)) : Follows (expect kind) rule.course bound := by
  apply Follows.current_bind
  intro token
  split
  · next hkind => exact hkind ▸ followsAt_advance h
  · exact followsAt_unexpected hhalts

theorem follows_mark (symbol : Symbol) : Follows (mark symbol) (Ebnf.mark symbol).course bound :=
  follows_expect (.mark symbol) (.mark symbol)

theorem follows_word (keyword : Keyword) :
    Follows (word keyword) (Ebnf.word keyword).course bound :=
  follows_expect (.word keyword) (.word keyword)

theorem follows_takeName : Follows takeName Ebnf.name.course bound := by
  apply Follows.current_bind
  intro token
  split
  · exact (followsAt_advance .name).bind_idle fun _ => idle_pure _
  · exact followsAt_unexpected Ebnf.Halts.name

/-! ### Options and repetitions -/

theorem Follows.sees_bind {item : Ebnf} {yes no : Reader α}
    (hyes : Follows yes item.course bound) (hno : Idle no) :
    Follows (sees kind >>= fun seen => if seen = true then yes else no) item.optional.course
      bound := by
  rw [Reader.sees_bind]
  apply idle_current.bind
  intro token
  split
  · exact hyes.left
  · exact fun _ => hno.followsAt (Ebnf.Derives.right .empty)

section

variable {begins : Token → Bool} {item : Reader α} {rule : Ebnf}

theorem follows_atMost
    (h : ∀ token, begins token = true → FollowsAt token.kind item rule.course bound)
    (rounds : Nat) : Follows (atMost begins item rounds) rule.many.course bound := by
  induction rounds with
  | zero => exact fun _ => (idle_pure []).followsAt Ebnf.Derives.none
  | succ rounds ih =>
      apply Follows.current_bind
      intro token
      split
      · next hbegins =>
          apply FollowsAt.mono _ Ebnf.course_mul_course_many_le
          exact (h token hbegins).bind fun _ => ih.bind_pure _
      · exact (idle_pure []).followsAt Ebnf.Derives.none

theorem follows_many
    (h : ∀ token, begins token = true → FollowsAt token.kind item rule.course bound) :
    Follows (many begins item) rule.many.course bound :=
  fun kind cursor hkind hlength => follows_atMost h cursor.rest.length kind cursor hkind hlength

theorem Follows.many1 (h : Follows item rule.course bound) :
    Follows (many1 begins item) (rule.course * rule.many.course) bound :=
  h.bind fun _ => (follows_many fun token _ => h token.kind).bind_pure _

theorem Follows.separated {symbol : Symbol} (h : Follows item rule.course bound) :
    Follows (separated symbol item) (Ebnf.separated (.mark symbol) rule).course bound := by
  have hmore : Follows (mark symbol >>= fun _ => item) (Ebnf.mark symbol ++ rule).course bound := by
    rw [Ebnf.course_append]
    exact (follows_mark symbol).bind fun _ => h
  rw [Ebnf.separated, Ebnf.course_append]
  exact h.bind fun _ => (follows_many fun token _ => hmore token.kind).bind_pure _

end

section

variable {operator? : Token → Option β} {operators : List Kind} {operator rule : Ebnf}

theorem Operators.followsAt_advance (h : Operators operator? operators)
    (hwords : operator.words = oneOf operators) {token : Token} {value : β}
    (hsome : operator? token = some value) :
    FollowsAt token.kind advance operator.course bound := by
  have hkind : token.kind ∈ operators := (h.isSome_iff token).mp (Option.isSome_of_eq_some hsome)
  have hderives : [token.kind] ∈ operator.words := hwords ▸ ⟨token.kind, hkind, rfl⟩
  exact Reader.followsAt_advance hderives

theorem Follows.operands {item : Reader α} (h : Follows item rule.course bound)
    (hoperators : Operators operator? operators) (hwords : operator.words = oneOf operators) :
    Follows (operands operator? item) (Ebnf.many (operator ++ rule)).course bound := by
  have heq : Reader.operands operator? item =
      Reader.many (fun token => (operator? token).isSome) (Reader.operand operator? item) :=
    congrArg (fun next => get >>= next) (funext fun _ => operandsAtMost_eq operator? item _)
  rw [heq]
  refine follows_many fun token hbegins => ?_
  apply FollowsAt.current_bind
  intro other hother
  have hsame : (operator? other).isSome = true := by
    rw [hoperators.isSome_iff, hother]
    exact (hoperators.isSome_iff token).mp hbegins
  obtain ⟨value, hsome⟩ := Option.isSome_iff_exists.mp hsame
  rw [hsome, ← hother, Ebnf.course_append]
  exact (hoperators.followsAt_advance hwords hsome).bind fun _ => h.bind_pure _

end

end Reader

end Outline

end MiniPascal
