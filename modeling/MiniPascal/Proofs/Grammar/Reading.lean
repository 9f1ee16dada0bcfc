import MiniPascal.Outline.Parse
import MiniPascal.Proofs.Grammar.Rules

/-!
# Readers of languages

A reader reads a language if what it takes off the front of the tokens is always a word
of the language, and if it takes off a word wherever one stands in front of a token that
can follow it.  Readers that bound their nesting do so for words below a length.
-/

namespace MiniPascal

open Token (Kind)
open scoped Computability

/-! ### Kinds of tokens -/

theorem Token.kind_eq_keyword_iff {token : Token} {word : Keyword} :
    token.kind = .keyword word ↔ token = .keyword word := by
  cases token <;> simp [Token.kind]

theorem Token.kind_eq_symbol_iff {token : Token} {mark : Symbol} :
    token.kind = .symbol mark ↔ token = .symbol mark := by
  cases token <;> simp [Token.kind]

theorem Token.kind_eq_name_iff {token : Token} :
    token.kind = .name ↔ ∃ word, token = .name word := by
  cases token <;> simp [Token.kind]

/-! ### First tokens of words -/

/-- Each word begins with a token of one of some kinds. -/
def Starts (starts : List Kind) (words : Language Kind) : Prop :=
  ∀ word ∈ words, ∃ kind ∈ starts, word.head? = some kind

/-- The first token of each word, or what follows an empty one, has a property. -/
def Leads (first : Kind → Prop) (words : Language Kind) (follows : Kind → Prop) : Prop :=
  ∀ word ∈ words, ∀ kind, follows kind → first (word.headD kind)

section

variable {first follows follows' : Kind → Prop} {starts starts' : List Kind} {kind : Kind}
  {words words' : Language Kind}

theorem starts_oneOf (kinds : List Kind) : Starts kinds (oneOf kinds) := by
  rintro _ ⟨kind, hmem, rfl⟩
  exact ⟨kind, hmem, rfl⟩

theorem Starts.mul (h : Starts starts words) (words' : Language Kind) :
    Starts starts (words * words') := by
  intro _ hword
  obtain ⟨front, hfront, back, -, rfl⟩ := Language.mem_mul.mp hword
  obtain ⟨kind, hkind, hhead⟩ := h front hfront
  exact ⟨kind, hkind, by rw [List.head?_append, hhead]; rfl⟩

theorem Starts.add (h : Starts starts words) (h' : Starts starts' words') :
    Starts (starts ++ starts') (words + words') := by
  rintro word (hword | hword)
  · obtain ⟨kind, hkind, hhead⟩ := h word hword
    exact ⟨kind, List.mem_append_left starts' hkind, hhead⟩
  · obtain ⟨kind, hkind, hhead⟩ := h' word hword
    exact ⟨kind, List.mem_append_right starts hkind, hhead⟩

theorem Starts.ne_nil (h : Starts starts words) {word : List Kind} (hword : word ∈ words) :
    word ≠ [] := by
  obtain ⟨kind, -, hhead⟩ := h word hword
  rintro rfl
  cases hhead

theorem Starts.leads (h : Starts starts words) (hstarts : ∀ kind ∈ starts, first kind) :
    Leads first words follows := by
  intro word hword kind _
  obtain ⟨begin, hbegin, hhead⟩ := h word hword
  rw [List.headD_eq_head?_getD, hhead]
  exact hstarts begin hbegin

theorem leads_one (h : ∀ kind, follows kind → first kind) : Leads first 1 follows := by
  rintro word rfl
  exact h

theorem Leads.add (h : Leads first words follows) (h' : Leads first words' follows) :
    Leads first (words + words') follows := by
  rintro word (hword | hword)
  · exact h word hword
  · exact h' word hword

theorem Leads.mul (h : Leads first words follows) (h' : Leads follows words' follows') :
    Leads first (words * words') follows' := by
  intro _ hword kind hkind
  obtain ⟨front, hfront, back, hback, rfl⟩ := Language.mem_mul.mp hword
  have := h front hfront _ (h' back hback kind hkind)
  cases front <;> exact this

theorem Starts.leads_kstar (h : Starts starts words) (hstarts : ∀ kind ∈ starts, first kind)
    (hfollows : ∀ kind, follows kind → first kind) : Leads first words∗ follows := by
  rw [← Language.one_add_self_mul_kstar_eq_kstar]
  exact (leads_one hfollows).add ((h.mul _).leads hstarts)

end

namespace Outline

/-! ### Places among the tokens -/

/-- The kind of the first of some tokens; past the last one stands the end of the file. -/
def headKind (tokens : List Located) : Kind :=
  (tokens.head?.map Located.kind).getD .endOfFile

abbrev kinds (tokens : List Located) : List Kind :=
  tokens.map Located.kind

theorem Cursor.kind_current (cursor : Cursor) : cursor.current.kind = headKind cursor.rest := by
  unfold current
  split
  · next h => rw [h]; rfl
  · next h => rw [h]; rfl

theorem Cursor.nextKind_eq (cursor : Cursor) : cursor.nextKind = headKind cursor.rest.tail := by
  unfold nextKind
  split
  · next h => rw [h]; rfl
  · next h =>
      match hrest : cursor.rest with
      | [] => rfl
      | [_] => rfl
      | _ :: _ :: _ => exact absurd hrest (h _ _ _)

/-- The kind of the first token of a word, or else of what follows it. -/
theorem headKind_append (front back : List Located) :
    headKind (front ++ back) = (kinds front).headD (headKind back) := by
  cases front <;> rfl

namespace Reader

variable {α β : Type}

/-! ### Runs -/

theorem run_bind_eq_ok_iff {first : Reader α} {next : α → Reader β} {cursor final : Cursor}
    {result : β} : (first >>= next).run cursor = .ok result final ↔
      ∃ value middle, first.run cursor = .ok value middle ∧
        (next value).run middle = .ok result final := by
  change EStateM.bind first next cursor = _ ↔ _
  unfold EStateM.bind EStateM.run
  cases first cursor with
  | ok value middle => simp
  | error error middle => simp

/-- What the reader takes at a token of a kind is a word of the language. -/
def SoundAt (kind : Kind) (reader : Reader α) (words : Language Kind) : Prop :=
  ∀ cursor final value, headKind cursor.rest = kind → reader.run cursor = .ok value final →
    ∃ front, cursor.rest = front ++ final.rest ∧ kinds front ∈ words

/-- The reader takes words of the language only. -/
def Sound (reader : Reader α) (words : Language Kind) : Prop :=
  ∀ kind, SoundAt kind reader words

/-- The reader takes every word, below a length, that stands in front of something that
can follow it. -/
def Complete (reader : Reader α) (words : Language Kind) (follows : Kind → Prop)
    (bound : Nat) : Prop :=
  ∀ cursor front back, cursor.rest = front ++ back → kinds front ∈ words →
    follows (headKind back) → front.length < bound →
      ∃ value final, reader.run cursor = .ok value final ∧ final.rest = back

/-- The reader takes the words of a language. -/
structure Reads (reader : Reader α) (words : Language Kind) (follows : Kind → Prop)
    (bound : Nat) : Prop where
  sound : Sound reader words
  complete : Complete reader words follows bound

/-- A step that takes no tokens. -/
def Still (reader : Reader α) : Prop :=
  ∀ cursor, ∃ value final, reader.run cursor = .ok value final ∧ final.rest = cursor.rest

/-- Anything can follow. -/
def Anything (_ : Kind) : Prop :=
  True

variable {words words' : Language Kind} {follows follows' : Kind → Prop} {bound bound' : Nat}
  {kind : Kind} {reader : Reader α} {first : Reader α} {next : α → Reader β}

theorem SoundAt.mono (h : SoundAt kind reader words) (hwords : words ≤ words') :
    SoundAt kind reader words' := by
  intro cursor final value hkind hrun
  obtain ⟨front, hrest, hfront⟩ := h cursor final value hkind hrun
  exact ⟨front, hrest, hwords hfront⟩

theorem Sound.mono (h : Sound reader words) (hwords : words ≤ words') : Sound reader words' :=
  fun kind => (h kind).mono hwords

theorem Complete.mono (h : Complete reader words follows bound)
    (hfollows : ∀ kind, follows' kind → follows kind) (hbound : bound' ≤ bound) :
    Complete reader words follows' bound' := by
  intro cursor front back hrest hfront hback hlength
  exact h cursor front back hrest hfront (hfollows _ hback) (Nat.lt_of_lt_of_le hlength hbound)

theorem Complete.of_anything (h : Complete reader words Anything bound) (follows : Kind → Prop) :
    Complete reader words follows bound :=
  h.mono (fun _ _ => trivial) (Nat.le_refl bound)

theorem Complete.mono_words (h : Complete reader words follows bound) (hwords : words' ≤ words) :
    Complete reader words' follows bound :=
  fun cursor front back hrest hfront => h cursor front back hrest (hwords hfront)

theorem Reads.mono (h : Reads reader words follows bound)
    (hfollows : ∀ kind, follows' kind → follows kind) (hbound : bound' ≤ bound) :
    Reads reader words follows' bound' :=
  ⟨h.sound, h.complete.mono hfollows hbound⟩

theorem Reads.of_anything (h : Reads reader words Anything bound) (follows : Kind → Prop) :
    Reads reader words follows bound :=
  ⟨h.sound, h.complete.of_anything follows⟩

/-- A word of either language is taken if those of both are. -/
theorem Complete.add (h : Complete reader words follows bound)
    (h' : Complete reader words' follows bound) :
    Complete reader (words + words') follows bound := by
  rintro cursor front back hrest (hfront | hfront)
  · exact h cursor front back hrest hfront
  · exact h' cursor front back hrest hfront

/-- Nothing is below no length. -/
theorem Complete.zero (reader : Reader α) (words : Language Kind) (follows : Kind → Prop) :
    Complete reader words follows 0 :=
  fun _ _ _ _ _ _ hlength => absurd hlength (Nat.not_lt_zero _)

/-- A reader that only fails reads nothing. -/
theorem sound_unexpected (expected : Expectation) (words : Language Kind) :
    Sound (unexpected expected : Reader α) words := by
  intro _ _ _ _ _ hrun
  cases hrun

/-! ### Sequences -/

theorem SoundAt.bind (h : SoundAt kind first words)
    (hnext : ∀ value, Sound (next value) words') :
    SoundAt kind (first >>= next) (words * words') := by
  intro cursor final result hkind hrun
  obtain ⟨value, middle, hfirst, hsecond⟩ := run_bind_eq_ok_iff.mp hrun
  obtain ⟨front, hrest, hfront⟩ := h _ _ _ hkind hfirst
  obtain ⟨back, hmiddle, hback⟩ := hnext value _ _ _ _ rfl hsecond
  refine ⟨front ++ back, ?_, ?_⟩
  · rw [hrest, hmiddle, List.append_assoc]
  · rw [kinds, List.map_append]
    exact Language.append_mem_mul hfront hback

theorem Sound.bind (h : Sound first words) (hnext : ∀ value, Sound (next value) words') :
    Sound (first >>= next) (words * words') :=
  fun kind => (h kind).bind hnext

theorem Complete.bind_of_length {total : Nat} (h : Complete first words follows bound)
    (hnext : ∀ value, Complete (next value) words' follows' bound')
    (hleads : Leads follows words' follows')
    (hlength : ∀ word ∈ words, ∀ word' ∈ words', word.length + word'.length < total →
      word.length < bound ∧ word'.length < bound') :
    Complete (first >>= next) (words * words') follows' total := by
  intro cursor tokens back hrest htokens hfollows htotal
  obtain ⟨word, hword, word', hword', heq⟩ := Language.mem_mul.mp htokens
  obtain ⟨front, middle, rfl, rfl, rfl⟩ := List.map_eq_append_iff.mp heq.symm
  have hboth := hlength _ hword _ hword'
  simp only [List.length_map] at hboth
  rw [List.length_append] at htotal
  obtain ⟨hfront, hmiddle⟩ := hboth htotal
  rw [List.append_assoc] at hrest
  have hahead : follows (headKind (middle ++ back)) := by
    rw [headKind_append]
    exact hleads _ hword' _ hfollows
  obtain ⟨value, between, hfirst, hbetween⟩ := h _ _ _ hrest hword hahead hfront
  obtain ⟨result, final, hsecond, hfinal⟩ := hnext value _ _ _ hbetween hword' hfollows hmiddle
  exact ⟨result, final, run_bind_eq_ok_iff.mpr ⟨value, between, hfirst, hsecond⟩, hfinal⟩

theorem Complete.bind (h : Complete first words follows bound)
    (hnext : ∀ value, Complete (next value) words' follows' bound)
    (hleads : Leads follows words' follows') :
    Complete (first >>= next) (words * words') follows' bound :=
  h.bind_of_length hnext hleads fun _ _ _ _ hlength => by omega

theorem Reads.bind (h : Reads first words follows bound)
    (hnext : ∀ value, Reads (next value) words' follows' bound)
    (hleads : Leads follows words' follows') :
    Reads (first >>= next) (words * words') follows' bound where
  sound := h.sound.bind fun value => (hnext value).sound
  complete := h.complete.bind (fun value => (hnext value).complete) hleads

/-- After a token, words are shorter. -/
theorem Complete.token_bind {starts : List Kind} (h : Complete first (oneOf starts) Anything 2)
    (hnext : ∀ value, Complete (next value) words follows bound) :
    Complete (first >>= next) (oneOf starts * words) follows (bound + 1) := by
  apply h.bind_of_length hnext (fun _ _ _ _ => trivial)
  rintro _ ⟨kind, -, rfl⟩ word' - hlength
  rw [List.length_singleton] at hlength ⊢
  omega

theorem Still.rest_eq (h : Still reader) {cursor final : Cursor} {value : α}
    (hrun : reader.run cursor = .ok value final) : final.rest = cursor.rest := by
  obtain ⟨found, last, hfound, hrest⟩ := h cursor
  cases hrun.symm.trans hfound
  exact hrest

theorem still_pure (value : α) : Still (pure value : Reader α) :=
  fun cursor => ⟨value, cursor, rfl, rfl⟩

theorem Still.sound_bind (h : Still first) (hnext : ∀ value, Sound (next value) words) :
    Sound (first >>= next) words := by
  intro kind cursor final result hkind hrun
  obtain ⟨value, middle, hlook, hsecond⟩ := run_bind_eq_ok_iff.mp hrun
  rw [← h.rest_eq hlook] at hkind ⊢
  exact hnext value _ _ _ _ hkind hsecond

theorem Still.complete_bind (h : Still first)
    (hnext : ∀ value, Complete (next value) words follows bound) :
    Complete (first >>= next) words follows bound := by
  intro cursor front back hrest hfront hback hlength
  obtain ⟨value, middle, hlook, hmiddle⟩ := h cursor
  obtain ⟨result, final, hrun, hfinal⟩ :=
    hnext value middle _ _ (hmiddle.trans hrest) hfront hback hlength
  exact ⟨result, final, run_bind_eq_ok_iff.mpr ⟨value, middle, hlook, hrun⟩, hfinal⟩

theorem Still.reads_bind (h : Still first)
    (hnext : ∀ value, Reads (next value) words follows bound) :
    Reads (first >>= next) words follows bound :=
  ⟨h.sound_bind fun value => (hnext value).sound,
    h.complete_bind fun value => (hnext value).complete⟩

/-- What is made of a value takes no more tokens. -/
theorem SoundAt.bind_still (h : SoundAt kind first words) (hnext : ∀ value, Still (next value)) :
    SoundAt kind (first >>= next) words := by
  intro cursor final result hkind hrun
  obtain ⟨value, middle, hfirst, hsecond⟩ := run_bind_eq_ok_iff.mp hrun
  rw [(hnext value).rest_eq hsecond]
  exact h _ _ _ hkind hfirst

theorem Complete.bind_still (h : Complete first words follows bound)
    (hnext : ∀ value, Still (next value)) : Complete (first >>= next) words follows bound := by
  intro cursor front back hrest hfront hback hlength
  obtain ⟨value, middle, hfirst, hmiddle⟩ := h _ _ _ hrest hfront hback hlength
  obtain ⟨result, final, hsecond, hfinal⟩ := hnext value middle
  exact ⟨result, final, run_bind_eq_ok_iff.mpr ⟨value, middle, hfirst, hsecond⟩,
    hfinal.trans hmiddle⟩

theorem Reads.bind_still (h : Reads first words follows bound)
    (hnext : ∀ value, Still (next value)) : Reads (first >>= next) words follows bound :=
  ⟨fun kind => (h.sound kind).bind_still hnext, h.complete.bind_still hnext⟩

/-- The reader takes the empty word. -/
theorem Still.sound (h : Still reader) : Sound reader 1 :=
  fun _ _ _ _ _ hrun => ⟨[], (h.rest_eq hrun).symm, rfl⟩

theorem Still.reads (h : Still reader) : Reads reader 1 Anything bound where
  sound := h.sound
  complete := by
    intro cursor front back hrest hfront _ _
    obtain rfl : front = [] := List.map_eq_nil_iff.mp hfront
    obtain ⟨value, final, hrun, hfinal⟩ := h cursor
    exact ⟨value, final, hrun, hfinal.trans hrest⟩

/-- More nesting than there are tokens is never needed. -/
theorem reads_of_depth {reader : Nat → Reader α}
    (h : ∀ depth, Reads (reader depth) words follows depth) :
    Reads (do reader ((← get).rest.length + 1)) words follows bound where
  sound := fun kind cursor final value hkind hrun =>
    (h (cursor.rest.length + 1)).sound kind cursor final value hkind hrun
  complete := by
    intro cursor front back hrest hfront hback _
    apply (h (cursor.rest.length + 1)).complete cursor front back hrest hfront hback
    rw [hrest, List.length_append]
    omega

/-! ### Looking at the current token -/

theorem still_currentLine : Still currentLine :=
  fun cursor => ⟨cursor.line, cursor, rfl, rfl⟩

theorem still_modify {change : Cursor → Cursor} (h : ∀ cursor, (change cursor).rest = cursor.rest) :
    Still (modify change : Reader PUnit) :=
  fun cursor => ⟨⟨⟩, change cursor, rfl, h cursor⟩

theorem run_current_bind (body : Token → Reader α) (cursor : Cursor) :
    (current >>= body).run cursor = (body cursor.current).run cursor := rfl

theorem Sound.current_bind {body : Token → Reader α}
    (h : ∀ token, SoundAt token.kind (body token) words) : Sound (current >>= body) words := by
  intro kind cursor final value _ hrun
  exact h cursor.current cursor final value cursor.kind_current.symm hrun

/-- It is enough to look at the tokens that words of the language can begin with. -/
theorem Complete.current_bind {body : Token → Reader α} {begins : Kind → Prop}
    (hleads : Leads begins words follows)
    (h : ∀ token : Token, begins token.kind → Complete (body token) words follows bound) :
    Complete (current >>= body) words follows bound := by
  intro cursor front back hrest hfront hback hlength
  have hbegins := hleads _ hfront _ hback
  rw [← headKind_append, ← hrest, ← cursor.kind_current] at hbegins
  exact h cursor.current hbegins cursor front back hrest hfront hback hlength

theorem Complete.current_bind_starts {body : Token → Reader α} {starts : List Kind}
    (hstarts : Starts starts words)
    (h : ∀ token : Token, token.kind ∈ starts → Complete (body token) words follows bound) :
    Complete (current >>= body) words follows bound :=
  Complete.current_bind (hstarts.leads fun _ hkind => hkind) h

theorem Complete.keyword_bind {body : Token → Reader α} {keyword : Keyword}
    (h : Complete (body (.keyword keyword)) (oneOf [.keyword keyword] * words) follows bound) :
    Complete (current >>= body) (oneOf [.keyword keyword] * words) follows bound := by
  apply Complete.current_bind_starts ((starts_oneOf _).mul words)
  intro token htoken
  rw [Token.kind_eq_keyword_iff.mp (List.mem_singleton.mp htoken)]
  exact h

theorem Complete.symbol_bind {body : Token → Reader α} {symbol : Symbol}
    (h : Complete (body (.symbol symbol)) (oneOf [.symbol symbol] * words) follows bound) :
    Complete (current >>= body) (oneOf [.symbol symbol] * words) follows bound := by
  apply Complete.current_bind_starts ((starts_oneOf _).mul words)
  intro token htoken
  rw [Token.kind_eq_symbol_iff.mp (List.mem_singleton.mp htoken)]
  exact h

theorem Complete.name_bind {body : Token → Reader α}
    (h : ∀ name, Complete (body (.name name)) (oneOf [.name] * words) follows bound) :
    Complete (current >>= body) (oneOf [.name] * words) follows bound := by
  apply Complete.current_bind_starts ((starts_oneOf _).mul words)
  intro token htoken
  obtain ⟨name, rfl⟩ := Token.kind_eq_name_iff.mp (List.mem_singleton.mp htoken)
  exact h name

theorem Sound.nextKind_bind {body : Kind → Reader α} (h : ∀ kind, Sound (body kind) words) :
    Sound (nextKind >>= body) words := by
  intro kind cursor final value hkind hrun
  exact h cursor.nextKind kind cursor final value hkind hrun

/-- The token after the first one is that of the rest of the word, or what follows. -/
theorem Complete.nextKind_bind {body : Kind → Reader α} {begins : Kind → Prop}
    {starts : List Kind} (hleads : Leads begins words follows)
    (h : ∀ kind, begins kind → Complete (body kind) (oneOf starts * words) follows bound) :
    Complete (nextKind >>= body) (oneOf starts * words) follows bound := by
  intro cursor tokens back hrest htokens hback hlength
  obtain ⟨_, ⟨kind, -, rfl⟩, word, hword, heq⟩ := Language.mem_mul.mp htokens
  have hbegins := hleads _ hword _ hback
  have hnext : headKind cursor.rest.tail = word.headD (headKind back) := by
    match tokens with
    | first :: front =>
        cases heq
        rw [hrest, List.cons_append, List.tail_cons, headKind_append]
  rw [← hnext, ← cursor.nextKind_eq] at hbegins
  exact h cursor.nextKind hbegins cursor tokens back hrest htokens hback hlength

theorem soundAt_advance {starts : List Kind} (hkind : kind ∈ starts)
    (hfile : .endOfFile ∉ starts) : SoundAt kind advance (oneOf starts) := by
  intro cursor final value hhead hrun
  cases hrun
  match hrest : cursor.rest with
  | [] =>
      rw [hrest] at hhead
      subst hhead
      exact absurd hkind hfile
  | first :: rest =>
      rw [hrest] at hhead
      exact ⟨[first], by simp [hrest], kind, hkind, congrArg (fun kind => [kind]) hhead⟩

theorem complete_advance (starts : List Kind) : Complete advance (oneOf starts) Anything bound := by
  intro cursor tokens back hrest htokens _ _
  obtain ⟨kind, -, hword⟩ := htokens
  match tokens with
  | [first] => exact ⟨(), cursor.advance, rfl, by simp [hrest]⟩

/-- A token of the kind is taken. -/
theorem reads_expect (hfile : .endOfFile ∉ [kind]) :
    Reads (expect kind) (oneOf [kind]) Anything bound where
  sound := by
    apply Sound.current_bind
    intro token
    split
    · next heq =>
        rw [heq]
        exact soundAt_advance (List.mem_singleton_self kind) hfile
    · exact sound_unexpected _ _ _
  complete := by
    apply Complete.current_bind_starts (starts_oneOf [kind])
    intro token htoken
    rw [if_pos (List.mem_singleton.mp htoken)]
    exact complete_advance [kind]

theorem reads_mark (symbol : Symbol) :
    Reads (mark symbol) (oneOf [.symbol symbol]) Anything bound :=
  reads_expect (by simp)

theorem reads_word (keyword : Keyword) :
    Reads (word keyword) (oneOf [.keyword keyword]) Anything bound :=
  reads_expect (by simp)

theorem sound_word (keyword : Keyword) : Sound (word keyword) (oneOf [.keyword keyword]) :=
  (@reads_word 0 keyword).sound

theorem reads_takeName : Reads takeName (oneOf [.name]) Anything bound where
  sound := by
    apply Sound.current_bind
    intro token
    split
    · exact (soundAt_advance (List.mem_singleton_self .name) (by simp)).bind_still
        fun _ => still_pure _
    · exact sound_unexpected _ _ _
  complete := by
    apply Complete.current_bind_starts (starts_oneOf [.name])
    rintro (_ | _ | _ | _ | _ | _) htoken
    case name => exact (complete_advance [.name]).bind_still fun _ => still_pure _
    all_goals cases List.mem_singleton.mp htoken

/-- After a token, words are shorter. -/
theorem Reads.token_bind {starts : List Kind} (h : Reads first (oneOf starts) Anything 2)
    (hnext : ∀ value, Reads (next value) words follows bound) :
    Reads (first >>= next) (oneOf starts * words) follows (bound + 1) where
  sound := h.sound.bind fun value => (hnext value).sound
  complete := h.complete.token_bind fun value => (hnext value).complete

/-! ### Recorded productions -/

/-- Events take no tokens. -/
theorem still_record (event : TraceEvent) :
    Still (modify fun cursor => { cursor with events := event :: cursor.events } :
      Reader PUnit) :=
  still_modify fun _ => rfl

theorem still_leave (production : Production) (value : α) :
    Still (do
      modify fun cursor => { cursor with events := .leave production :: cursor.events }
      pure value : Reader α) :=
  fun _ => ⟨value, _, rfl, rfl⟩

theorem Sound.within (h : Sound reader words) (production : Production) :
    Sound (within production reader) words :=
  (still_record (.enter production)).sound_bind fun _ kind =>
    (h kind).bind_still (still_leave production)

theorem Complete.within (h : Complete reader words follows bound) (production : Production) :
    Complete (within production reader) words follows bound :=
  (still_record (.enter production)).complete_bind fun _ =>
    h.bind_still (still_leave production)

theorem Reads.within (h : Reads reader words follows bound) (production : Production) :
    Reads (within production reader) words follows bound :=
  ⟨h.sound.within production, h.complete.within production⟩

end Reader

end Outline

end MiniPascal
