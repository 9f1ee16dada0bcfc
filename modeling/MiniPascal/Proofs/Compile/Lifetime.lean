import MiniPascal.Proofs.Assembly.Words
import MiniPascal.Proofs.Code.Draws
import MiniPascal.Proofs.Compile.Independent

/-!
# The life of a context

A context is asked for things any number of times, in any order: to draw labels with stems and
names of any kind, to compile texts, or to go through single stages of compilations, on
trees of any kind.  Each demand draws numbers above those drawn before it, and a label ends in
its number.  So no two labels are the same, whatever they were derived from, but for the
names of the entry, which every listing shows.

The counter is a natural number, and has no limit.  A counter of 32 bits gives the same labels
until 4294967295 of them are drawn; what comes after that is not what is spoken of here.
-/

namespace MiniPascal

open MiniPascal.Assembly
open MiniPascal.Code

namespace Context

/-- What may be asked of a context: to draw a label, to remember a name, to change the log, to
go through a stage of a compilation, or through all of them. -/
inductive Demand
  | localLabel
  | namedLabel (stem name : String)
  | setTitle (name : String)
  | onLog (change : Log → Log)
  | parse (tokens : List Located)
  | check (tree : Tree)
  | generate (tree : Tree)
  | compile (source : String)

/-- What a context gives back. -/
inductive Answer
  | nothing
  | label (text : String)
  | listing (listing : Listing)

def Answer.labels : Answer → List String
  | nothing => []
  | label text => [text]
  | listing found => found.labels

def Answer.label? : Answer → Option String
  | label text => some text
  | nothing | listing _ => none

def Answer.drawn : Answer → List String
  | nothing => []
  | label text => [text]
  | listing found => found.labels.filter (· ∉ entryNames)

/-- The answer to a demand, and the context after it.  A listing has the lines
that were written, even if its code could not be completed. -/
def answer (context : Context) : Demand → Answer × Context
  | .localLabel => (.label context.localLabel.1.text, context.localLabel.2)
  | .namedLabel stem name =>
    (.label (context.namedLabel stem name).1.text, (context.namedLabel stem name).2)
  | .setTitle name => (.nothing, context.setTitle name)
  | .onLog change => (.nothing, context.onLog change)
  | .parse tokens =>
    match (Compilation.parse tokens).run context with
    | .ok _ final => (.nothing, final)
    | .error _ final => (.nothing, final)
  | .check tree => (.nothing, (Compilation.checkIn tree context).context)
  | .generate tree =>
    let generated := Compilation.generateIn tree .empty context
    (.listing generated.listing, generated.context)
  | .compile source =>
    match (MiniPascal.compile source).run context with
    | .ok listing final => (.listing listing, final)
    | .error _ final => (.nothing, final)

/-- The answers to demands one after another. -/
def answers (context : Context) : List Demand → List Answer
  | [] => []
  | demand :: others => (context.answer demand).1 :: (context.answer demand).2.answers others

/-- A written label in a listing: a name of the entry, or the stem of a class of labels and
small characters after it. -/
def IsListed (text : String) : Prop :=
  text ∈ entryNames ∨ ∃ stem ∈ ".L" :: unitStems, IsSpelled stem text

/-- The answer is of the kind that the demand asks for, and its labels are written in small
characters behind their stems.  A compilation may be refused; if not, its labels differ. -/
def Demand.IsAnswered : Demand → Answer → Prop
  | localLabel, .label text => IsSpelled ".L" text
  | namedLabel stem _, .label text => IsSpelled stem text
  | setTitle _, .nothing | onLog _, .nothing | parse _, .nothing | check _, .nothing => True
  | generate _, .listing listing => ∀ text ∈ listing.labels, IsListed text
  | compile _, .listing listing => listing.labels.Nodup ∧ ∀ text ∈ listing.labels, IsListed text
  | compile _, .nothing => True
  | _, _ => False

/-- Two answers share no label but the names of the entry. -/
def Answer.Apart (first second : Answer) : Prop :=
  ∀ text ∈ first.labels, text ∈ second.labels → text ∈ entryNames

/-- What one demand does to the counter of labels: it goes up, and the labels of
the answer end in numbers that it went past. -/
structure Step (demand : Demand) (counter : Nat) (answer : Answer) (final : Nat) : Prop where
  counter_le : counter ≤ final
  numbers : ∀ text ∈ answer.drawn,
    ∃ number, trailingNumber? text = some number ∧ counter < number ∧ number ≤ final
  answered : demand.IsAnswered answer

end Context

/-! ### Listings -/

namespace Assembly

variable {start final : Nat}

theorem Label.ShownBetween.exists_number {label : Label} (h : label.ShownBetween start final)
    (hname : label.text ∉ entryNames) :
    ∃ number, trailingNumber? label.text = some number ∧ start < number ∧ number ≤ final := by
  cases label with
  | numbered number => exact ⟨number, Label.trailingNumber?_text rfl, h⟩
  | unit stem name number => exact ⟨number, Label.trailingNumber?_text rfl, h.2⟩
  | global name => exact absurd h hname

theorem Label.ShownBetween.isListed {label : Label} (h : label.ShownBetween start final) :
    Context.IsListed label.text := by
  cases label with
  | numbered number => exact .inr ⟨".L", List.mem_cons_self, isSpelled_numbered number⟩
  | unit stem name number =>
      exact .inr ⟨stem, List.mem_cons_of_mem _ h.1, isSpelled_unit stem name number⟩
  | global name => exact .inl h

/-- The labels of the listing were drawn while the counter went from one number to another. -/
def Listing.DrawnBetween (start final : Nat) (listing : Listing) : Prop :=
  start ≤ final ∧
    ∀ text ∈ listing.labels, ∃ label : Label, text = label.text ∧ label.ShownBetween start final

namespace Listing.DrawnBetween

variable {listing : Listing}

theorem numbers (h : listing.DrawnBetween start final) :
    ∀ text ∈ (Context.Answer.listing listing).drawn,
      ∃ number, trailingNumber? text = some number ∧ start < number ∧ number ≤ final := by
  intro text htext
  obtain ⟨hlabel, hname⟩ := List.mem_filter.mp htext
  obtain ⟨label, rfl, hshown⟩ := h.2 text hlabel
  exact hshown.exists_number (of_decide_eq_true hname)

theorem isListed (h : listing.DrawnBetween start final) :
    ∀ text ∈ listing.labels, Context.IsListed text := by
  intro text htext
  obtain ⟨label, rfl, hshown⟩ := h.2 text htext
  exact hshown.isListed

end Listing.DrawnBetween

end Assembly

namespace Compilation

/-- The lines written for any tree show labels that were drawn for it. -/
theorem drawnBetween_generateIn (tree : Tree) (context : Context) :
    (generateIn tree .empty context).listing.DrawnBetween context.labels
      (generateIn tree .empty context).context.labels := by
  obtain ⟨hle, hshown, -⟩ := draws_program tree (context.title?.getD tree.name) context.labels
    context.labels (Nat.le_refl _)
  refine ⟨hle, fun text htext => ?_⟩
  unfold generateIn at htext
  rw [Listing.labels_append, filterMap_label?_listed] at htext
  obtain ⟨label, hlabel, rfl⟩ := List.mem_map.mp htext
  exact ⟨label, rfl, hshown label hlabel⟩

section Compile

variable {source : String} {context final : Context} {listing : Listing}

/-- The listing of a text is that of its tree, and the stages before it draw no labels. -/
theorem drawnBetween_compile (h : (compile source).run context = .ok listing final) :
    listing.DrawnBetween context.labels final.labels := by
  obtain ⟨tokens, tree, middle, -, htokens, hgenerate⟩ := exists_stages_of_compile h
  have hdrawn := drawnBetween_generateIn tree middle
  rw [labels_of_checkTokens htokens] at hdrawn
  change generate tree middle = _ at hgenerate
  unfold generate at hgenerate
  dsimp only at hgenerate
  split at hgenerate
  · cases hgenerate
    exact hdrawn
  · cases hgenerate

theorem nodup_labels_of_compile (h : (compile source).run context = .ok listing final) :
    listing.labels.Nodup := by
  obtain ⟨tokens, tree, middle, -, htokens, hgenerate⟩ := exists_stages_of_compile h
  obtain ⟨outline, skeleton, -, -, program⟩ := exists_checkedProgram htokens
  obtain ⟨lines, hemits, rfl⟩ := exists_emits_of_generate hgenerate
  obtain ⟨labels, hcode⟩ := exists_programCode program hemits
  exact (hcode.linked program.nodup_codeOrder (fun _ => program.mem_codeOrder_iff)
    (program.pairwise_codeOrder skeleton .top)).nodup

/-- A compilation that is refused draws no labels. -/
theorem labels_of_compile_error {diagnostic : Diagnostic}
    (h : (compile source).run context = .error diagnostic final) :
    final.labels = context.labels := by
  rcases compile_outcome source with
    ⟨found, hrefused⟩ | ⟨tokens, outline, lines, drawn, -, -, hcompiled⟩
  · obtain ⟨final', hrun, hlabels⟩ := hrefused context
    obtain ⟨-, rfl⟩ := EStateM.Result.error.inj (h.symm.trans hrun)
    exact hlabels
  · obtain ⟨final', hrun, -⟩ := hcompiled context
    cases h.symm.trans hrun

end Compile

end Compilation

namespace Context

variable {context final : Context}

/-! ### One demand -/

theorem answer_parse (context : Context) (tokens : List Located) :
    context.answer (.parse tokens) = (.nothing, Compilation.parsedContext tokens context) := by
  unfold answer
  cases hresult : (Outline.parse tokens).result with
  | ok outline => simp only [Compilation.run_parse_of_ok hresult]
  | error error => simp only [Compilation.run_parse_of_error hresult]

theorem answer_compile_of_ok {source : String} {listing : Listing}
    (h : (MiniPascal.compile source).run context = .ok listing final) :
    context.answer (.compile source) = (.listing listing, final) := by
  simp only [answer, h]

theorem answer_compile_of_error {source : String} {diagnostic : Diagnostic}
    (h : (MiniPascal.compile source).run context = .error diagnostic final) :
    context.answer (.compile source) = (.nothing, final) := by
  simp only [answer, h]

/-- A demand without an answer leaves the counter where it is. -/
theorem Step.nothing {demand : Demand} {counter final : Nat} (h : final = counter)
    (hanswered : demand.IsAnswered .nothing) : Step demand counter .nothing final where
  counter_le := Nat.le_of_eq h.symm
  numbers := fun _ htext => absurd htext List.not_mem_nil
  answered := hanswered

/-- A label that is drawn ends in the number that the counter goes to. -/
theorem Step.label {demand : Demand} {counter : Nat} {label : Label}
    (h : label.number? = some (counter + 1)) (hanswered : demand.IsAnswered (.label label.text)) :
    Step demand counter (.label label.text) (counter + 1) where
  counter_le := Nat.le_succ counter
  numbers := List.forall_mem_singleton.mpr
    ⟨counter + 1, Label.trailingNumber?_text h, Nat.lt_succ_self _, Nat.le_refl _⟩
  answered := hanswered

theorem step_answer (context : Context) (demand : Demand) :
    Step demand context.labels (context.answer demand).1 (context.answer demand).2.labels := by
  cases demand with
  | localLabel => exact .label rfl (isSpelled_numbered _)
  | namedLabel stem name => exact .label rfl (isSpelled_unit stem name _)
  | setTitle | onLog | check => exact .nothing rfl trivial
  | parse tokens =>
      rw [answer_parse]
      exact .nothing rfl trivial
  | generate tree =>
      have hdrawn := Compilation.drawnBetween_generateIn tree context
      exact ⟨hdrawn.1, hdrawn.numbers, hdrawn.isListed⟩
  | compile source =>
      cases hrun : (MiniPascal.compile source).run context with
      | ok listing final =>
          have hdrawn := Compilation.drawnBetween_compile hrun
          rw [answer_compile_of_ok hrun]
          exact ⟨hdrawn.1, hdrawn.numbers, Compilation.nodup_labels_of_compile hrun,
            hdrawn.isListed⟩
      | error diagnostic final =>
          rw [answer_compile_of_error hrun]
          exact .nothing (Compilation.labels_of_compile_error hrun) trivial

/-! ### Demands in a row -/

theorem answered_answers (context : Context) (demands : List Demand) :
    List.Forall₂ Demand.IsAnswered demands (context.answers demands) := by
  induction demands generalizing context with
  | nil => exact .nil
  | cons demand others ih => exact .cons (context.step_answer demand).answered (ih _)

/-- All that is drawn from a context has numbers above its counter. -/
theorem lt_number_of_answers (context : Context) (demands : List Demand) :
    ∀ answer ∈ context.answers demands, ∀ text ∈ answer.drawn,
      ∃ number, trailingNumber? text = some number ∧ context.labels < number := by
  induction demands generalizing context with
  | nil => exact fun _ hanswer => absurd hanswer List.not_mem_nil
  | cons demand others ih =>
      have step := context.step_answer demand
      intro answer hanswer text htext
      rcases List.mem_cons.mp hanswer with rfl | hlater
      · obtain ⟨number, hnumber, hlow, -⟩ := step.numbers text htext
        exact ⟨number, hnumber, hlow⟩
      · obtain ⟨number, hnumber, hlow⟩ := ih _ answer hlater text htext
        exact ⟨number, hnumber, Nat.lt_of_le_of_lt step.counter_le hlow⟩

/-- No label is drawn again later: its number is too small. -/
theorem disjoint_answers (context : Context) (demands : List Demand) :
    (context.answers demands).Pairwise fun first later => first.drawn.Disjoint later.drawn := by
  induction demands generalizing context with
  | nil => exact .nil
  | cons demand others ih =>
      refine .cons (fun later hlater text hfirst hsecond => ?_) (ih _)
      obtain ⟨number, hnumber, -, hhigh⟩ := (context.step_answer demand).numbers text hfirst
      obtain ⟨number', hnumber', hlow⟩ :=
        (context.answer demand).2.lt_number_of_answers others later hlater text hsecond
      obtain rfl := Option.some.inj (hnumber.symm.trans hnumber')
      exact absurd hhigh (Nat.not_le_of_lt hlow)

theorem Answer.mem_drawn_of_label? {answer : Answer} {text : String}
    (h : answer.label? = some text) : text ∈ answer.drawn := by
  cases answer with
  | nothing | listing => cases h
  | label found =>
      obtain rfl := Option.some.inj h
      exact List.mem_singleton_self _

theorem Answer.mem_drawn_of_notMem {answer : Answer} {text : String} (h : text ∈ answer.labels)
    (hname : text ∉ entryNames) : text ∈ answer.drawn := by
  cases answer with
  | nothing => exact h
  | label found => exact h
  | listing found => exact List.mem_filter.mpr ⟨h, decide_eq_true hname⟩

theorem Answer.apart_of_disjoint {first later : Answer}
    (h : first.drawn.Disjoint later.drawn) : first.Apart later := by
  intro text hfirst hlater
  by_contra hname
  exact h (mem_drawn_of_notMem hfirst hname) (mem_drawn_of_notMem hlater hname)

/-- Names of the entry have no number, unlike labels that are drawn. -/
theorem disjoint_entryNames (context : Context) (demands : List Demand) :
    entryNames.Disjoint ((context.answers demands).filterMap Answer.label?) := by
  intro text hname hlabel
  obtain ⟨answer, hanswer, hlabel⟩ := List.mem_filterMap.mp hlabel
  obtain ⟨number, hnumber, -⟩ := context.lt_number_of_answers demands answer hanswer text
    (Answer.mem_drawn_of_label? hlabel)
  rw [ProgramCode.trailingNumber?_entry text hname] at hnumber
  cases hnumber

/-- **Labels never collide.**  Whatever is asked of a context, and whatever stems and names
labels are derived from: the labels that are drawn are written differently, and differ from the
names of the entry; each is its stem with lower-case letters, digits and underscores after it;
and two listings, or a listing and a label that is drawn, share none but the names of the
entry. -/
theorem labels_apart (context : Context) (demands : List Demand) :
    (entryNames ++ (context.answers demands).filterMap Answer.label?).Nodup ∧
      List.Forall₂ Demand.IsAnswered demands (context.answers demands) ∧
      (context.answers demands).Pairwise Answer.Apart := by
  have hdisjoint := context.disjoint_answers demands
  refine ⟨List.nodup_append'.mpr ⟨by decide, ?_, context.disjoint_entryNames demands⟩,
    context.answered_answers demands, hdisjoint.imp Answer.apart_of_disjoint⟩
  apply List.pairwise_filterMap.mpr
  apply hdisjoint.imp
  rintro first later h text hfirst _ hlater rfl
  exact h (Answer.mem_drawn_of_label? hfirst) (Answer.mem_drawn_of_label? hlater)

/-- Names that look like other labels, in small letters or not, and an empty one. -/
example :
    let demands : List Demand := [.namedLabel "proc$" "Q_1", .namedLabel "proc$" "q", .localLabel,
      .namedLabel ".L000" "", .localLabel, .namedLabel "proc$q_1" ""]
    ((Context.fresh false false).answers demands).filterMap Answer.label? =
      ["proc$q_1_1", "proc$q_2", ".L0003", ".L000_4", ".L0005", "proc$q_1_6"] := by
  decide +kernel

end Context

end MiniPascal
