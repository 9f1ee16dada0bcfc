import MiniPascal.Proofs.Grammar.Loops

/-!
# What a reader looks at

A reader looks at the tokens it takes and at the one after them, and at nothing else:
not at lines, nor at events.  So two runs on tokens that agree that far take as many
tokens and end alike, in values that differ in lines or in errors that expect the same.
Readers that bound their nesting do so on cursors with fewer tokens than the bound,
whichever bounds the two runs have.
-/

namespace MiniPascal.Outline

/-! ### Places -/

namespace Cursor

/-- The token a number of places ahead.  Past the last one stands the end of the file. -/
def ahead (cursor : Cursor) (count : Nat) : Token :=
  (cursor.rest[count]?.map Located.token).getD .endOfFile

theorem current_eq_ahead (cursor : Cursor) : cursor.current = cursor.ahead 0 := by
  unfold current ahead
  cases cursor.rest <;> rfl

theorem nextKind_eq_ahead (cursor : Cursor) : cursor.nextKind = (cursor.ahead 1).kind := by
  unfold nextKind ahead
  match cursor.rest with
  | [] => rfl
  | [_] => rfl
  | _ :: _ :: _ => rfl

/-- Two cursors that differ in their events alone. -/
structure Same (cursor other : Cursor) : Prop where
  rest : cursor.rest = other.rest
  line : cursor.line = other.line
  title? : cursor.title? = other.title?

namespace Same

variable {cursor other third : Cursor}

theorem refl (cursor : Cursor) : cursor.Same cursor :=
  ⟨rfl, rfl, rfl⟩

theorem symm (h : cursor.Same other) : other.Same cursor :=
  ⟨h.rest.symm, h.line.symm, h.title?.symm⟩

theorem trans (h : cursor.Same other) (h' : other.Same third) : cursor.Same third :=
  ⟨h.rest.trans h'.rest, h.line.trans h'.line, h.title?.trans h'.title?⟩

theorem current_eq (h : cursor.Same other) : cursor.current = other.current := by
  unfold current
  rw [h.rest]

theorem advance (h : cursor.Same other) : cursor.advance.Same other.advance := by
  refine ⟨?_, ?_, ?_⟩
  · rw [rest_advance, rest_advance, h.rest]
  · unfold Cursor.advance
    rw [h.rest]
    split
    · rfl
    · exact h.line
  · rw [title?_advance, title?_advance, h.title?]

theorem iterate (h : cursor.Same other) (count : Nat) :
    (Cursor.advance^[count] cursor).Same (Cursor.advance^[count] other) := by
  induction count generalizing cursor other with
  | zero => exact h
  | succ count ih => exact ih h.advance

end Same

/-- The second cursor is a number of tokens further on. -/
structure Reaches (count : Nat) (cursor final : Cursor) : Prop where
  count_le : count ≤ cursor.rest.length
  same : final.Same (advance^[count] cursor)

theorem rest_iterate (cursor : Cursor) (count : Nat) :
    (advance^[count] cursor).rest = cursor.rest.drop count := by
  induction count generalizing cursor with
  | zero => rfl
  | succ count ih => rw [Function.iterate_succ_apply, ih, rest_advance, List.drop_tail]

namespace Reaches

variable {count count' : Nat} {cursor cursor' middle final : Cursor}

theorem zero (h : final.Same cursor) : Reaches 0 cursor final :=
  ⟨Nat.zero_le _, h⟩

theorem rest_eq (h : Reaches count cursor final) : final.rest = cursor.rest.drop count := by
  rw [h.same.rest, rest_iterate]

theorem length_eq (h : Reaches count cursor final) :
    final.rest.length + count = cursor.rest.length := by
  rw [h.rest_eq, List.length_drop]
  exact Nat.sub_add_cancel h.count_le

theorem trans (h : Reaches count cursor middle) (h' : Reaches count' middle final) :
    Reaches (count + count') cursor final where
  count_le := by
    have := h.length_eq
    have := h'.length_eq
    omega
  same := by
    rw [Nat.add_comm, Function.iterate_add_apply]
    exact h'.same.trans (h.same.iterate count')

theorem of_same (h : Reaches count cursor final) (hsame : cursor.Same cursor') :
    Reaches count cursor' final where
  count_le := hsame.rest ▸ h.count_le
  same := h.same.trans (hsame.iterate count)

theorem ahead_eq (h : Reaches count cursor final) (further : Nat) :
    final.ahead further = cursor.ahead (count + further) := by
  unfold ahead
  rw [h.rest_eq, List.getElem?_drop]

/-- The number of tokens is known from where they end. -/
theorem unique (h : Reaches count cursor final) (h' : Reaches count' cursor final) :
    count = count' := by
  have := h.length_eq
  have := h'.length_eq
  omega

end Reaches

/-- The tokens ahead are the same up to and including the one at a position. -/
structure Agrees (count : Nat) (cursor cursor' : Cursor) : Prop where
  count_le : count ≤ cursor'.rest.length
  ahead_eq : ∀ place ≤ count, cursor'.ahead place = cursor.ahead place

namespace Agrees

variable {count count' : Nat} {cursor cursor' middle middle' : Cursor}

theorem mono (h : Agrees count cursor cursor') (hcount : count' ≤ count) :
    Agrees count' cursor cursor' :=
  ⟨hcount.trans h.count_le, fun place hplace => h.ahead_eq place (hplace.trans hcount)⟩

theorem current_eq (h : Agrees count cursor cursor') : cursor'.current = cursor.current := by
  rw [current_eq_ahead, current_eq_ahead, h.ahead_eq 0 (Nat.zero_le count)]

theorem of_same (h : Agrees count cursor cursor') (hsame : cursor.Same middle)
    (hsame' : cursor'.Same middle') : Agrees count middle middle' where
  count_le := hsame'.rest ▸ h.count_le
  ahead_eq place hplace := by
    unfold ahead
    rw [← hsame.rest, ← hsame'.rest]
    exact h.ahead_eq place hplace

/-- What agrees still agrees after the same number of tokens. -/
theorem drop (h : Agrees (count + count') cursor cursor') (hreach : Reaches count cursor middle)
    (hreach' : Reaches count cursor' middle') : Agrees count' middle middle' where
  count_le := by
    have := h.count_le
    have := hreach'.length_eq
    omega
  ahead_eq place hplace := by
    rw [hreach.ahead_eq, hreach'.ahead_eq]
    exact h.ahead_eq _ (Nat.add_le_add_left hplace count)

end Agrees

end Cursor

namespace Reader

open Cursor

variable {α β γ δ : Type}

/-! ### Runs -/

/-- A run takes a number of tokens.  An error tells of the token after them, and of its
line. -/
inductive Stops (count : Nat) (cursor : Cursor) : EStateM.Result SyntaxError Cursor α → Prop
  | ok {value : α} {final : Cursor} (reaches : Reaches count cursor final) :
    Stops count cursor (.ok value final)
  | error {error : SyntaxError} {final : Cursor} (reaches : Reaches count cursor final)
    (found : error.found = final.current) (line : error.line = final.line) :
    Stops count cursor (.error error final)

/-- Two runs end in values that look the same, or in errors that expect the same. -/
inductive Alike (view : α → β) :
    EStateM.Result SyntaxError Cursor α → EStateM.Result SyntaxError Cursor α → Prop
  | ok {value value' : α} {final final' : Cursor} (same : view value = view value') :
    Alike view (.ok value final) (.ok value' final')
  | error {error error' : SyntaxError} {final final' : Cursor}
    (expected : error.expected = error'.expected) :
    Alike view (.error error final) (.error error' final')

/-- At a token, a run of the first reader takes at least so many tokens, and wherever
the tokens agree up to the one after those, a run of the second one takes as many and
ends alike. -/
def EchoesAt (least : Nat) (token : Token) (bound bound' : Nat) (view : α → β)
    (reader reader' : Reader α) : Prop :=
  ∀ cursor : Cursor, cursor.current = token → cursor.rest.length < bound →
    ∃ count, least ≤ count ∧ Stops count cursor (reader.run cursor) ∧
      ∀ cursor' : Cursor, Agrees count cursor cursor' → cursor'.rest.length < bound' →
        Stops count cursor' (reader'.run cursor') ∧
          Alike view (reader.run cursor) (reader'.run cursor')

/-- At every token, the second reader echoes the first one. -/
def Echoes (bound bound' : Nat) (view : α → β) (reader reader' : Reader α) : Prop :=
  ∀ token, EchoesAt 0 token bound bound' view reader reader'

/-- A step that changes nothing but the events. -/
def Quiet (reader : Reader α) : Prop :=
  ∀ cursor, ∃ value final, reader.run cursor = .ok value final ∧ final.Same cursor

/-- If the reader succeeds, it has taken a token. -/
def Productive (reader : Reader α) : Prop :=
  ∀ cursor final value, reader.run cursor = .ok value final →
    final.rest.length + 1 ≤ cursor.rest.length

theorem Sound.productive {words : Language Token.Kind} {starts : List Token.Kind}
    {reader : Reader α} (h : Sound reader words) (hstarts : Starts starts words) :
    Productive reader := by
  intro cursor final value hrun
  obtain ⟨front, hrest, hfront⟩ := h _ cursor final value rfl hrun
  have hpos := List.length_pos_of_ne_nil (hstarts.ne_nil hfront)
  rw [hrest, List.length_append]
  rw [List.length_map] at hpos
  omega

section

variable {least count count' bound bound' : Nat} {token : Token} {cursor cursor' : Cursor}
variable {view : α → β} {view' : γ → δ} {reader reader' : Reader α}

theorem Stops.count_le {outcome : EStateM.Result SyntaxError Cursor α}
    (h : Stops count cursor outcome) : count ≤ cursor.rest.length := by
  cases h with
  | ok reaches => exact reaches.count_le
  | error reaches _ _ => exact reaches.count_le

theorem Stops.reaches {value : α} {final : Cursor}
    (h : Stops count cursor (.ok value final)) : Reaches count cursor final := by
  cases h with
  | ok reaches => exact reaches

/-- An error stays one in a longer run. -/
theorem Stops.of_error {error : SyntaxError} {final : Cursor}
    (h : Stops count cursor (.error error final : EStateM.Result SyntaxError Cursor α)) :
    Stops count cursor (.error error final : EStateM.Result SyntaxError Cursor β) := by
  cases h with
  | error reaches found line => exact .error reaches found line

theorem Alike.exists_ok {value : α} {final : Cursor}
    {outcome : EStateM.Result SyntaxError Cursor α} (h : Alike view (.ok value final) outcome) :
    ∃ value' final', outcome = .ok value' final' ∧ view value = view value' := by
  cases h with
  | ok same => exact ⟨_, _, rfl, same⟩

theorem Alike.exists_error {error : SyntaxError} {final : Cursor}
    {outcome : EStateM.Result SyntaxError Cursor α} (h : Alike view (.error error final) outcome) :
    ∃ error' final', outcome = .error error' final' ∧ error.expected = error'.expected := by
  cases h with
  | error expected => exact ⟨_, _, rfl, expected⟩

theorem Stops.of_same {outcome : EStateM.Result SyntaxError Cursor α}
    (h : Stops count cursor outcome) (hsame : cursor.Same cursor') :
    Stops count cursor' outcome := by
  cases h with
  | ok reaches => exact .ok (reaches.of_same hsame)
  | error reaches found line => exact .error (reaches.of_same hsame) found line

theorem Stops.trans {middle : Cursor} {outcome : EStateM.Result SyntaxError Cursor α}
    (h : Stops count' middle outcome) (hreach : Reaches count cursor middle) :
    Stops (count + count') cursor outcome := by
  cases h with
  | ok reaches => exact .ok (hreach.trans reaches)
  | error reaches found line => exact .error (hreach.trans reaches) found line

theorem Stops.unique {outcome : EStateM.Result SyntaxError Cursor α}
    (h : Stops count cursor outcome) (h' : Stops count' cursor outcome) : count = count' := by
  cases h with
  | ok reaches =>
      cases h' with
      | ok reaches' => exact reaches.unique reaches'
  | error reaches _ _ =>
      cases h' with
      | error reaches' _ _ => exact reaches.unique reaches'

/-- Errors after the same number of tokens tell of the same token, where the tokens agree. -/
theorem Stops.found_eq {error error' : SyntaxError} {final final' : Cursor}
    (h : Stops count cursor (.error error final : EStateM.Result SyntaxError Cursor α))
    (h' : Stops count cursor' (.error error' final' : EStateM.Result SyntaxError Cursor α))
    (hagrees : Agrees count cursor cursor') : error'.found = error.found := by
  cases h with
  | error reaches found _ =>
      cases h' with
      | error reaches' found' _ =>
          rw [found, found', current_eq_ahead, current_eq_ahead, reaches.ahead_eq,
            reaches'.ahead_eq]
          exact hagrees.ahead_eq count (Nat.le_refl count)

theorem EchoesAt.mono (h : EchoesAt least token bound bound' view reader reader') {low low' : Nat}
    (hlow : low ≤ bound) (hlow' : low' ≤ bound') :
    EchoesAt 0 token low low' view reader reader' := by
  intro cursor htoken hlength
  obtain ⟨count, -, hstops, hagree⟩ := h cursor htoken (hlength.trans_le hlow)
  exact ⟨count, Nat.zero_le count, hstops, fun cursor' hagrees hlength' =>
    hagree cursor' hagrees (hlength'.trans_le hlow')⟩

/-- Nothing is to be shown of a second reader that has no room. -/
theorem Echoes.zero_right (h : Echoes bound bound' view reader reader') (other : Reader α) :
    Echoes bound 0 view reader other := by
  intro token cursor htoken hlength
  obtain ⟨count, hleast, hstops, -⟩ := h token cursor htoken hlength
  exact ⟨count, hleast, hstops, fun _ _ hlength' => absurd hlength' (Nat.not_lt_zero _)⟩

theorem echoes_zero (view : α → β) (reader reader' : Reader α) :
    Echoes 0 bound' view reader reader' :=
  fun _ _ _ hlength => absurd hlength (Nat.not_lt_zero _)

/-- Readers that echo each other within any bounds do so without bounds. -/
theorem Echoes.unbounded (h : ∀ bound bound', Echoes bound bound' view reader reader')
    (cursor : Cursor) :
    ∃ count, Stops count cursor (reader.run cursor) ∧
      ∀ cursor' : Cursor, Agrees count cursor cursor' →
        Stops count cursor' (reader'.run cursor') ∧
          Alike view (reader.run cursor) (reader'.run cursor') := by
  have hbounded (bound' : Nat) := h (cursor.rest.length + 1) bound' _ cursor rfl
    (Nat.lt_succ_self _)
  obtain ⟨count, -, hstops, -⟩ := hbounded 0
  refine ⟨count, hstops, fun cursor' hagrees => ?_⟩
  obtain ⟨again, -, hstopsAgain, hagree⟩ := hbounded (cursor'.rest.length + 1)
  obtain rfl := hstops.unique hstopsAgain
  exact hagree cursor' hagrees (Nat.lt_succ_self _)

/-! ### Sequences -/

theorem echoes_pure {value value' : α} (h : view value = view value') :
    Echoes bound bound' view (pure value) (pure value') := by
  intro token cursor _ _
  refine ⟨0, Nat.le_refl 0, .ok (.zero (.refl cursor)), fun cursor' _ _ => ?_⟩
  exact ⟨.ok (.zero (.refl cursor')), .ok h⟩

theorem echoes_unexpected (expected : Expectation) :
    Echoes bound bound' view (unexpected expected) (unexpected expected) := by
  intro token cursor _ _
  refine ⟨0, Nat.le_refl 0, .error (.zero (.refl cursor)) rfl rfl, fun cursor' _ _ => ?_⟩
  exact ⟨.error (.zero (.refl cursor')) rfl rfl, .error rfl⟩

variable {first first' : Reader α} {next next' : α → Reader γ}

/-- A sequence, when the first reader takes at least so many tokens if it succeeds. -/
theorem EchoesAt.bind_of_length {taken low low' : Nat}
    (h : EchoesAt least token bound bound' view first first')
    (htaken : ∀ cursor final value, cursor.current = token → cursor.rest.length < bound →
      first.run cursor = .ok value final → final.rest.length + taken ≤ cursor.rest.length)
    (hlow : bound ≤ low + taken) (hlow' : bound' ≤ low' + taken)
    (hnext : ∀ value value', view value = view value' →
      Echoes low low' view' (next value) (next' value')) :
    EchoesAt least token bound bound' view' (first >>= next) (first' >>= next') := by
  intro cursor htoken hlength
  obtain ⟨count, hleast, hstops, hagree⟩ := h cursor htoken hlength
  change ∃ count, least ≤ count ∧ Stops count cursor (EStateM.bind first next cursor) ∧
    ∀ cursor' : Cursor, Agrees count cursor cursor' → cursor'.rest.length < bound' →
      Stops count cursor' (EStateM.bind first' next' cursor') ∧
        Alike view' (EStateM.bind first next cursor) (EStateM.bind first' next' cursor')
  have hfirst := fun final value => htaken cursor final value htoken hlength
  unfold EStateM.bind
  change Stops count cursor (first cursor) at hstops
  change ∀ cursor', _ → _ → Stops count cursor' (first' cursor') ∧
    Alike view (first cursor) (first' cursor') at hagree
  change ∀ final value, first cursor = .ok value final → _ at hfirst
  revert hstops hagree hfirst
  cases first cursor with
  | error error final =>
      intro hstops hagree _
      refine ⟨count, hleast, hstops.of_error, fun cursor' hagrees hlength' => ?_⟩
      obtain ⟨hstops', halike⟩ := hagree cursor' hagrees hlength'
      obtain ⟨error', final', herror, expected⟩ := halike.exists_error
      rw [herror] at hstops' ⊢
      exact ⟨hstops'.of_error, .error expected⟩
  | ok value final =>
      intro hstops hagree hfirst
      have hshort := hfirst final value rfl
      have hfinal := hstops.reaches.length_eq
      obtain ⟨count', -, hrest, -⟩ := hnext value value rfl _ final rfl (by omega)
      refine ⟨count + count', hleast.trans (Nat.le_add_right _ _), hrest.trans hstops.reaches, ?_⟩
      intro cursor' hagrees hlength'
      obtain ⟨hstops', halike⟩ := hagree cursor' (hagrees.mono (Nat.le_add_right _ _)) hlength'
      obtain ⟨value', final', hvalue, same⟩ := halike.exists_ok
      rw [hvalue] at hstops' ⊢
      have hfinal' := hstops'.reaches.length_eq
      obtain ⟨again, -, hrestAgain, hagreeRest⟩ :=
        hnext value value' same _ final rfl (by omega)
      obtain rfl := hrest.unique hrestAgain
      have hafter := hagrees.drop hstops.reaches hstops'.reaches
      obtain ⟨hlast, hends⟩ := hagreeRest final' hafter (by omega)
      exact ⟨hlast.trans hstops'.reaches, hends⟩

theorem EchoesAt.bind (h : EchoesAt least token bound bound' view first first')
    (hnext : ∀ value value', view value = view value' →
      Echoes bound bound' view' (next value) (next' value')) :
    EchoesAt least token bound bound' view' (first >>= next) (first' >>= next') := by
  have hfewer (cursor final : Cursor) (value : α) (htoken : cursor.current = token)
      (hlength : cursor.rest.length < bound) (hrun : first.run cursor = .ok value final) :
      final.rest.length + 0 ≤ cursor.rest.length := by
    obtain ⟨count, -, hstops, -⟩ := h cursor htoken hlength
    rw [hrun] at hstops
    exact (Nat.le_add_right _ count).trans_eq hstops.reaches.length_eq
  exact h.bind_of_length hfewer (Nat.le_refl bound) (Nat.le_refl bound') hnext

theorem Echoes.bind (h : Echoes bound bound' view first first')
    (hnext : ∀ value value', view value = view value' →
      Echoes bound bound' view' (next value) (next' value')) :
    Echoes bound bound' view' (first >>= next) (first' >>= next') :=
  fun token => (h token).bind hnext

/-- After a token is taken there is one less. -/
theorem EchoesAt.bind_of_productive
    (h : EchoesAt least token (bound + 1) (bound' + 1) view first first')
    (hproductive : Productive first)
    (hnext : ∀ value value', view value = view value' →
      Echoes bound bound' view' (next value) (next' value')) :
    EchoesAt least token (bound + 1) (bound' + 1) view' (first >>= next) (first' >>= next') :=
  h.bind_of_length (fun cursor final value _ _ => hproductive cursor final value) (Nat.le_refl _)
    (Nat.le_refl _) hnext

theorem Echoes.bind_of_productive (h : Echoes (bound + 1) (bound' + 1) view first first')
    (hproductive : Productive first)
    (hnext : ∀ value value', view value = view value' →
      Echoes bound bound' view' (next value) (next' value')) :
    Echoes (bound + 1) (bound' + 1) view' (first >>= next) (first' >>= next') :=
  fun token => (h token).bind_of_productive hproductive hnext

theorem run_bind_of_ok {value : α} {middle : Cursor} (h : first.run cursor = .ok value middle) :
    (first >>= next).run cursor = (next value).run middle := by
  change EStateM.bind first next cursor = _
  unfold EStateM.bind
  change first cursor = _ at h
  rw [h]
  rfl

/-- A step that takes nothing, and whatever it may find. -/
theorem Quiet.bind {look : Reader α} {body body' : α → Reader γ} (h : Quiet look)
    (hbody : ∀ value value',
      EchoesAt least token bound bound' view' (body value) (body' value')) :
    EchoesAt least token bound bound' view' (look >>= body) (look >>= body') := by
  intro cursor htoken hlength
  obtain ⟨value, middle, hlook, hsame⟩ := h cursor
  obtain ⟨count, hleast, hstops, hagree⟩ := hbody value value middle (hsame.current_eq.trans htoken)
    (hsame.rest ▸ hlength)
  rw [run_bind_of_ok hlook]
  refine ⟨count, hleast, hstops.of_same hsame, fun cursor' hagrees hlength' => ?_⟩
  obtain ⟨value', middle', hlook', hsame'⟩ := h cursor'
  rw [run_bind_of_ok hlook']
  obtain ⟨again, -, hstopsAgain, hrest⟩ := hbody value value' middle
    (hsame.current_eq.trans htoken) (hsame.rest ▸ hlength)
  obtain rfl := hstops.unique hstopsAgain
  obtain ⟨hstops', halike⟩ :=
    hrest middle' (hagrees.of_same hsame.symm hsame'.symm) (hsame'.rest ▸ hlength')
  exact ⟨hstops'.of_same hsame', halike⟩

/-! ### Looking ahead -/

theorem quiet_currentLine : Quiet currentLine :=
  fun cursor => ⟨cursor.line, cursor, rfl, .refl cursor⟩

/-- Events are no part of a place. -/
theorem quiet_record (event : TraceEvent) :
    Quiet (modify fun cursor => { cursor with events := event :: cursor.events } :
      Reader PUnit) :=
  fun _ => ⟨⟨⟩, _, rfl, ⟨rfl, rfl, rfl⟩⟩

theorem EchoesAt.current_bind {body body' : Token → Reader α}
    (h : EchoesAt least token bound bound' view (body token) (body' token)) :
    EchoesAt least token bound bound' view (current >>= body) (current >>= body') := by
  intro cursor htoken hlength
  obtain ⟨count, hleast, hstops, hagree⟩ := h cursor htoken hlength
  rw [← htoken] at hstops hagree
  refine ⟨count, hleast, hstops, fun cursor' hagrees hlength' => ?_⟩
  rw [run_current_bind, run_current_bind, hagrees.current_eq]
  exact hagree cursor' hagrees hlength'

theorem Echoes.current_bind {body body' : Token → Reader α}
    (h : ∀ token, EchoesAt 0 token bound bound' view (body token) (body' token)) :
    Echoes bound bound' view (current >>= body) (current >>= body') :=
  fun token => (h token).current_bind

/-- Looking at two tokens is looking at the next one, once the current one is taken. -/
theorem EchoesAt.nextKind_bind {body body' : Token.Kind → Reader α}
    (h : ∀ kind, EchoesAt 1 token bound bound' view (body kind) (body' kind)) :
    EchoesAt 0 token bound bound' view (nextKind >>= body) (nextKind >>= body') := by
  intro cursor htoken hlength
  obtain ⟨count, hleast, hstops, hagree⟩ := h cursor.nextKind cursor htoken hlength
  refine ⟨count, Nat.zero_le count, hstops, fun cursor' hagrees hlength' => ?_⟩
  have hkind : cursor'.nextKind = cursor.nextKind := by
    rw [nextKind_eq_ahead, nextKind_eq_ahead, hagrees.ahead_eq 1 hleast]
  change Stops count cursor' ((body' cursor'.nextKind).run cursor') ∧
    Alike view ((body cursor.nextKind).run cursor) ((body' cursor'.nextKind).run cursor')
  rw [hkind]
  exact hagree cursor' hagrees hlength'

theorem Echoes.sees_bind {kind : Token.Kind} {yes yes' no no' : Reader α}
    (hyes : Echoes bound bound' view yes yes') (hno : Echoes bound bound' view no no') :
    Echoes bound bound' view (sees kind >>= fun seen => if seen = true then yes else no)
      (sees kind >>= fun seen => if seen = true then yes' else no') := by
  rw [Reader.sees_bind, Reader.sees_bind]
  apply Echoes.current_bind
  intro token
  split
  · exact hyes token
  · exact hno token

theorem EchoesAt.within (h : EchoesAt least token bound bound' view reader reader')
    (production : Production) :
    EchoesAt least token bound bound' view (within production reader)
      (within production reader') := by
  refine (quiet_record (.enter production)).bind fun _ _ => h.bind ?_
  intro value value' hvalue token
  exact (quiet_record (.leave production)).bind fun _ _ => echoes_pure hvalue token

theorem Echoes.within (h : Echoes bound bound' view reader reader') (production : Production) :
    Echoes bound bound' view (within production reader) (within production reader') :=
  fun token => (h token).within production

/-! ### Tokens -/

theorem echoesAt_advance (hfile : token ≠ .endOfFile) :
    EchoesAt 1 token bound bound' id advance advance := by
  have hreach {cursor : Cursor} (htoken : cursor.current = token) :
      Reaches 1 cursor cursor.advance := by
    refine ⟨?_, .refl _⟩
    unfold Cursor.current at htoken
    split at htoken
    · exact absurd htoken.symm hfile
    · next hrest => simp [hrest]
  intro cursor htoken _
  refine ⟨1, Nat.le_refl 1, .ok (hreach htoken), fun cursor' hagrees _ => ?_⟩
  exact ⟨.ok (hreach (hagrees.current_eq.trans htoken)), .ok rfl⟩

theorem echoes_expect {kind : Token.Kind} (hfile : kind ≠ .endOfFile) :
    Echoes bound bound' id (expect kind) (expect kind) := by
  apply Echoes.current_bind
  intro token
  split
  · next hkind =>
      have htoken : token ≠ .endOfFile := by
        rintro rfl
        exact hfile hkind.symm
      exact (echoesAt_advance htoken).mono (Nat.le_refl bound) (Nat.le_refl bound')
  · exact echoes_unexpected _ token

theorem echoes_mark (symbol : Symbol) : Echoes bound bound' id (mark symbol) (mark symbol) :=
  echoes_expect (by nofun)

theorem echoes_word (keyword : Keyword) : Echoes bound bound' id (word keyword) (word keyword) :=
  echoes_expect (by nofun)

theorem productive_mark (symbol : Symbol) : Productive (mark symbol) :=
  (@reads_mark 0 symbol).sound.productive (starts_oneOf _)

theorem productive_word (keyword : Keyword) : Productive (word keyword) :=
  (@reads_word 0 keyword).sound.productive (starts_oneOf _)

theorem echoesAt_takeName (name : String) :
    EchoesAt 1 (.name name) bound bound' id takeName takeName := by
  apply EchoesAt.current_bind
  exact (echoesAt_advance (by nofun)).bind fun _ _ _ => echoes_pure rfl

theorem echoes_takeName : Echoes bound bound' id takeName takeName := by
  intro token
  by_cases hname : ∃ name, token = .name name
  · obtain ⟨name, rfl⟩ := hname
    exact (echoesAt_takeName name).mono (Nat.le_refl bound) (Nat.le_refl bound')
  · apply EchoesAt.current_bind
    cases token with
    | name name => exact absurd ⟨name, rfl⟩ hname
    | _ => exact echoes_unexpected _ _

/-! ### Repetitions -/

section Repetitions

variable {begins : Token → Bool} {item item' : Reader α}

/-- As many rounds as there are tokens are enough. -/
theorem run_atMost_add (hproductive : Productive item) (hfile : begins .endOfFile = false)
    {rounds : Nat} (hrounds : cursor.rest.length ≤ rounds) (more : Nat) :
    (atMost begins item (rounds + more)).run cursor = (atMost begins item rounds).run cursor := by
  induction rounds generalizing cursor with
  | zero =>
      have hcurrent : begins cursor.current = false := by
        unfold Cursor.current
        rw [List.eq_nil_of_length_eq_zero (Nat.le_zero.mp hrounds)]
        exact hfile
      cases more with
      | zero => rfl
      | succ more =>
          rw [Nat.zero_add]
          change (current >>= fun token => if begins token = true then _ else _).run cursor = _
          rw [run_current_bind, hcurrent]
          rfl
  | succ rounds ih =>
      rw [Nat.add_right_comm, atMost, atMost, run_current_bind, run_current_bind]
      split
      · change EStateM.bind item _ cursor = EStateM.bind item _ cursor
        unfold EStateM.bind
        cases hitem : item cursor with
        | error error final => rfl
        | ok value final =>
            have hfinal := hproductive cursor final value hitem
            have hagain : atMost begins item (rounds + more) final =
              atMost begins item rounds final := ih (by omega)
            change EStateM.bind (atMost begins item (rounds + more)) _ final =
              EStateM.bind (atMost begins item rounds) _ final
            unfold EStateM.bind
            rw [hagain]
      · rfl

theorem echoes_atMost (h : Echoes bound bound' view item item') (rounds : Nat) :
    Echoes bound bound' (List.map view) (atMost begins item rounds)
      (atMost begins item' rounds) := by
  induction rounds with
  | zero => exact echoes_pure rfl
  | succ rounds ih =>
      apply Echoes.current_bind
      intro token
      split
      · refine (h token).bind fun value value' hvalue => ih.bind fun others others' hothers => ?_
        apply echoes_pure
        rw [List.map_cons, List.map_cons, hvalue, hothers]
      · exact echoes_pure rfl token

theorem Echoes.many (h : Echoes bound bound' view item item') (hproductive : Productive item)
    (hproductive' : Productive item') (hfile : begins .endOfFile = false) :
    Echoes bound bound' (List.map view) (many begins item) (many begins item') := by
  intro token cursor htoken hlength
  have hitems (rounds : Nat) : EchoesAt 0 token bound bound' (List.map view)
      (atMost begins item rounds) (atMost begins item' rounds) := echoes_atMost h rounds token
  obtain ⟨count, hleast, hstops, -⟩ := hitems cursor.rest.length cursor htoken hlength
  refine ⟨count, hleast, hstops, fun cursor' hagrees hlength' => ?_⟩
  -- both runs have room in as many rounds as there are tokens in both
  obtain ⟨again, -, hstopsAgain, hagree⟩ :=
    hitems (cursor.rest.length + cursor'.rest.length) cursor htoken hlength
  rw [run_atMost_add hproductive hfile (Nat.le_refl _)] at hstopsAgain hagree
  obtain rfl := hstops.unique hstopsAgain
  have hends := hagree cursor' hagrees hlength'
  rw [Nat.add_comm, run_atMost_add hproductive' hfile (Nat.le_refl _)] at hends
  exact hends

theorem Echoes.many1 (h : Echoes bound bound' view item item') (hproductive : Productive item)
    (hproductive' : Productive item') (hfile : begins .endOfFile = false) :
    Echoes bound bound' (List.map view) (many1 begins item) (many1 begins item') := by
  refine h.bind fun value value' hvalue => ?_
  refine (h.many hproductive hproductive' hfile).bind fun others others' hothers => ?_
  apply echoes_pure
  rw [List.map_cons, List.map_cons, hvalue, hothers]

theorem Echoes.separated {symbol : Symbol} {words words' : Language Token.Kind}
    (h : Echoes bound bound' view item item') (hsound : Sound item words)
    (hsound' : Sound item' words') :
    Echoes bound bound' (List.map view) (separated symbol item) (separated symbol item') := by
  have hmore : Echoes bound bound' view (mark symbol >>= fun _ => item)
      (mark symbol >>= fun _ => item') := (echoes_mark symbol).bind fun _ _ _ => h
  have hproductive {item : Reader α} {words : Language Token.Kind} (hsound : Sound item words) :
      Productive (mark symbol >>= fun _ => item) :=
    ((@reads_mark 0 symbol).sound.bind fun _ => hsound).productive ((starts_oneOf _).mul _)
  refine h.bind fun value value' hvalue => ?_
  refine (hmore.many (hproductive hsound) (hproductive hsound') rfl).bind
    fun others others' hothers => ?_
  apply echoes_pure
  rw [List.map_cons, List.map_cons, hvalue, hothers]

/-- An operator, or the lack of one, tells which of two readers goes on. -/
theorem Echoes.operator_or {operator? : Token → Option δ} {operators : List Token.Kind}
    {body body' : Token → Reader α} {yes yes' : δ → Reader α} {no no' : Reader α}
    (hyes : ∀ operator, Echoes bound bound' view (yes operator) (yes' operator))
    (hno : Echoes bound bound' view no no') (h : Operators operator? operators)
    (hsome : ∀ {token operator}, operator? token = some operator →
      body token = (advance >>= fun _ => yes operator) ∧
        body' token = (advance >>= fun _ => yes' operator))
    (hnone : ∀ {token}, operator? token = none → body token = no ∧ body' token = no') :
    Echoes bound bound' view (current >>= body) (current >>= body') := by
  apply Echoes.current_bind
  intro token
  cases hcase : operator? token with
  | some operator =>
      have hfile : token ≠ .endOfFile := by
        rintro rfl
        exact h.endOfFile_notMem ((h.isSome_iff _).mp (Option.isSome_of_eq_some hcase))
      have hadvance : EchoesAt 0 token bound bound' id advance advance :=
        (echoesAt_advance hfile).mono (Nat.le_refl bound) (Nat.le_refl bound')
      rw [(hsome hcase).1, (hsome hcase).2]
      exact hadvance.bind fun _ _ _ => hyes operator
  | none =>
      rw [(hnone hcase).1, (hnone hcase).2]
      exact hno token

theorem Echoes.operands {operator? : Token → Option δ} {operators : List Token.Kind}
    {words words' : Language Token.Kind} {follows follows' : Token.Kind → Prop}
    (h : Echoes bound bound' view item item') (hreads : Reads item words follows 0)
    (hreads' : Reads item' words' follows' 0) (hoperators : Operators operator? operators) :
    Echoes bound bound' (List.map (Prod.map id view)) (operands operator? item)
      (operands operator? item') := by
  have heq (item : Reader α) : Reader.operands operator? item =
      Reader.many (fun token => (operator? token).isSome) (operand operator? item) :=
    congrArg (fun next => get >>= next) (funext fun _ => operandsAtMost_eq operator? item _)
  have hfile : (operator? .endOfFile).isSome = false := by
    rw [Bool.eq_false_iff]
    exact fun hsome => hoperators.endOfFile_notMem ((hoperators.isSome_iff _).mp hsome)
  have hoperand : Echoes bound bound' (Prod.map id view) (operand operator? item)
      (operand operator? item') := by
    have hvalue (operator : δ) : Echoes bound bound' (Prod.map id view)
        (item >>= fun value => pure (operator, value))
        (item' >>= fun value => pure (operator, value)) := by
      refine h.bind fun value value' hvalue => echoes_pure ?_
      exact congrArg (Prod.mk operator) hvalue
    apply Echoes.operator_or hvalue (echoes_unexpected .factor) hoperators
    · exact fun hsome => by rw [hsome]; exact ⟨rfl, rfl⟩
    · exact fun hnone => by rw [hnone]; exact ⟨rfl, rfl⟩
  rw [heq, heq]
  exact hoperand.many ((hreads.operand hoperators).sound.productive ((starts_oneOf _).mul _))
    ((hreads'.operand hoperators).sound.productive ((starts_oneOf _).mul _)) hfile

end Repetitions

/-! ### Nesting -/

/-- Readers that echo each other as long as there is room for their nesting do so when
the room is that of all tokens. -/
theorem echoes_of_depth {reader : Nat → Reader α}
    (h : ∀ depth depth', Echoes depth depth' view (reader depth) (reader depth')) :
    Echoes bound bound' view (do reader ((← get).rest.length + 1))
      (do reader ((← get).rest.length + 1)) := by
  intro token cursor htoken _
  obtain ⟨count, hleast, hstops, -⟩ :=
    h (cursor.rest.length + 1) 0 token cursor htoken (Nat.lt_succ_self _)
  refine ⟨count, hleast, hstops, fun cursor' hagrees _ => ?_⟩
  obtain ⟨again, -, hstopsAgain, hagree⟩ :=
    h (cursor.rest.length + 1) (cursor'.rest.length + 1) token cursor htoken (Nat.lt_succ_self _)
  obtain rfl := hstops.unique hstopsAgain
  exact hagree cursor' hagrees (Nat.lt_succ_self _)

/-- One more level of nesting on both sides at a time. -/
theorem echoes_by_depth {reader : Nat → Reader α}
    (hstep : ∀ depth depth', Echoes depth depth' view (reader depth) (reader depth') →
      Echoes (depth + 1) (depth' + 1) view (reader (depth + 1)) (reader (depth' + 1)))
    (depth depth' : Nat) : Echoes depth depth' view (reader depth) (reader depth') := by
  induction depth generalizing depth' with
  | zero => exact echoes_zero view _ _
  | succ depth ih =>
      cases depth' with
      | zero => exact (hstep depth depth (ih depth)).zero_right _
      | succ depth' => exact hstep depth depth' (ih depth')

end

end Reader

end MiniPascal.Outline
