import Mathlib
import GrokBuild.Storage.JsonlAppend
import GrokBuild.Summary.Write

/-!
# Working-directory switches

A switch is a line of the chat file, found by its generation when an attempt is made again, and
counted in the summary. What was counted is told by the highest generation that the summary has
seen.
-/

namespace GrokBuild.Storage

open GrokBuild.Text GrokBuild.Transcript GrokBuild.Summary

section Attempt

/-- `CHAT_FORMAT_VERSION`. -/
def chatFormatVersion : ℕ := 1

/-- Where the summary patch or the barrier behind it fails. -/
inductive BookkeepingFault where
  | patch
  | patched
  | none
deriving DecidableEq, Repr

/-- An attempt to append a switch: the item as it is written, its generation and what goes wrong. -/
structure Attempt where
  text : Bytes
  generation : Option ℕ
  appendFault : Fault := .none
  bookkeepingFault : BookkeepingFault := .none
  now : ℕ := 0
deriving DecidableEq

structure Session where
  chat : Bytes := []
  summary : Summary := {}
deriving DecidableEq

/-- The patch of an attempt: an appended line is counted as such, one that was there only by its
generation. -/
def switchPatch (appended : Bool) (generation : ℕ) : SummaryPatch where
  recordActivity := appended
  chatMessages := if appended then some (.increment 1) else none
  chatFormatVersion := some chatFormatVersion
  cwdSwitchBookkeepingGeneration := some generation

/-- What an attempt does to the two files: the chat file behind it and the summary patch that takes
effect, with what it returns. -/
structure Effect (I : Type) where
  chat : Bytes
  patch : Option SummaryPatch := none
  answer : Answer I

/-- The summary patch and the barrier behind it. -/
def bookkeep {I : Type} (chat : Bytes) (fault : BookkeepingFault) (patch : SummaryPatch)
    (answer : Answer I) : Effect I :=
  match fault with
  | .patch => { chat, answer := .committed }
  | .patched => { chat, patch := some patch, answer := .committed }
  | .none => { chat, patch := some patch, answer }

variable {I : Type} (readItem : Bytes → Option I) (generationOf : I → Option ℕ)

def Attempt.effect (chat : Bytes) (attempt : Attempt) : Effect I :=
  match attempt.generation.filter (0 < ·) with
  | none => { chat, answer := .notCommitted }
  | some generation =>
    match appendCwdSwitchLine readItem generationOf chat attempt.text generation
      attempt.appendFault with
    | (chat, .notCommitted) => { chat, answer := .notCommitted }
    | (chat, .committed) => { chat, answer := .committed }
    | (chat, .ok) => bookkeep chat attempt.bookkeepingFault (switchPatch true generation) .ok
    | (chat, .alreadyPresent item) =>
      bookkeep chat attempt.bookkeepingFault (switchPatch false generation) (.alreadyPresent item)

def appendCwdSwitchWithBookkeeping (s : Session) (attempt : Attempt) : Session × Answer I :=
  let effect := attempt.effect readItem generationOf s.chat
  (⟨effect.chat, effect.patch.elim s.summary fun patch =>
      (s.summary.applyPatch patch attempt.now).1⟩, effect.answer)

end Attempt

section Property

variable {I : Type} (readItem : Bytes → Option I) (generationOf : I → Option ℕ)

/-- The generations of the lines that read as switches. -/
def generationsOf (chat : Bytes) : List ℕ :=
  (splitNewlines chat).filterMap fun line => (readItem line).bind generationOf

/-- A session with how often the line of a generation was added to the chat counter, and the
generations of the attempts that returned `Ok`. -/
structure Tracked where
  session : Session
  counted : ℕ → ℕ := fun _ => 0
  acknowledged : List ℕ := []

def Answer.isOk {I : Type} : Answer I → Bool
  | .ok | .alreadyPresent _ => true
  | .notCommitted | .committed => false

/-- The attempt adds one to the chat counter. -/
def adds (s : Session) (attempt : Attempt) : Bool :=
  (attempt.effect readItem generationOf s.chat).patch.any fun patch =>
    (patch.chatOp s.summary).isSome

def Tracked.step (t : Tracked) (attempt : Attempt) : Tracked :=
  let result := appendCwdSwitchWithBookkeeping readItem generationOf t.session attempt
  let generation := attempt.generation.getD 0
  { session := result.1
    counted := if adds readItem generationOf t.session attempt then
        Function.update t.counted generation (t.counted generation + 1)
      else t.counted
    acknowledged := if result.2.isOk then generation :: t.acknowledged else t.acknowledged }

/-- No two lines are of one generation, and what was acknowledged is counted once. -/
structure CountedOnce (t : Tracked) : Prop where
  lines : (generationsOf readItem generationOf t.session.chat).Nodup
  counts : ∀ generation ∈ t.acknowledged, t.counted generation = 1

/-- The attempt goes through: nothing stops it before the write, and the bookkeeping succeeds. -/
def Attempt.goesThrough (attempt : Attempt) : Bool :=
  attempt.appendFault ≠ .early ∧ attempt.bookkeepingFault = .none

/-- An attempt that finds its line, not counted as yet, does not come behind the bookkeeping of a
higher generation. -/
def BooksBeforeHigher (t : Tracked) (attempt : Attempt) : Prop :=
  ∀ generation, attempt.generation = some generation → attempt.goesThrough = true →
    generation ∈ generationsOf readItem generationOf t.session.chat →
    t.counted generation = 0 → t.session.summary.cwdSwitchBookkeepingGeneration < generation

/-- The item of the attempt is written as a record of its generation. -/
structure Encodes (attempt : Attempt) : Prop where
  record : IsRecord readItem attempt.text
  generation : (readItem attempt.text).bind generationOf = attempt.generation

end Property

section Effects

variable {I : Type} {readItem : Bytes → Option I} {generationOf : I → Option ℕ}

theorem mem_generationsOf {chat : Bytes} {generation : ℕ} :
    generation ∈ generationsOf readItem generationOf chat ↔
      ∃ item, findCwdSwitchGeneration readItem generationOf chat generation = some item := by
  rw [generationsOf, List.mem_filterMap, ← Option.isSome_iff_exists, findCwdSwitchGeneration,
    List.findSome?_isSome_iff]
  refine exists_congr fun line => and_congr_right fun _ => ?_
  cases readItem line with
  | none => simp
  | some item => simp [Option.isSome_filter]

/-- What is written of a line adds its generation or nothing. -/
theorem generationsOf_tornLine {attempt : Attempt} (h : Encodes readItem generationOf attempt)
    {generation : ℕ} (hgeneration : attempt.generation = some generation) (chat : Bytes)
    (missing : ℕ) :
    generationsOf readItem generationOf
        (chat ++ tornLine (healedLine chat (attempt.text ++ [0x0a])) missing) =
      generationsOf readItem generationOf chat ++ if missing ≤ 1 then [generation] else [] := by
  have hread := h.generation.trans hgeneration
  have hline : WholeLine (fun line => (readItem line).bind generationOf) attempt.text :=
    { newline := h.record.newline
      reads := by rw [hread]; rfl
      torn := fun part hpart hne => by rw [h.record.torn part hpart hne, Option.bind_none] }
  rw [generationsOf, hline.read_tornLine h.record.ne_nil, hread]
  rfl

/-- What an attempt can do: nothing, find its line, write it as far as it comes and stop, or write
all of it and go on to the bookkeeping. -/
theorem Attempt.effect_cases {attempt : Attempt} (h : Encodes readItem generationOf attempt)
    (chat : Bytes) :
    ((attempt.goesThrough = false ∨ ∀ generation, attempt.generation = some generation →
        generation = 0) ∧ ∃ answer : Answer I, answer.isOk = false ∧
      attempt.effect readItem generationOf chat = { chat, answer }) ∨
    ∃ generation, attempt.generation = some generation ∧ 0 < generation ∧
      ((generation ∈ generationsOf readItem generationOf chat ∧ attempt.appendFault ≠ .early ∧
        ∃ item, attempt.effect readItem generationOf chat =
          bookkeep chat attempt.bookkeepingFault (switchPatch false generation)
            (.alreadyPresent item)) ∨
      (generation ∉ generationsOf readItem generationOf chat ∧
        ∃ chat', (∃ answer : Answer I, answer.isOk = false ∧
            attempt.effect readItem generationOf chat = { chat := chat', answer } ∧
            (generationsOf readItem generationOf chat' = generationsOf readItem generationOf chat ∨
              generationsOf readItem generationOf chat' =
                generationsOf readItem generationOf chat ++ [generation])) ∨
          (attempt.effect readItem generationOf chat =
            bookkeep chat' attempt.bookkeepingFault (switchPatch true generation) .ok ∧
            generationsOf readItem generationOf chat' =
              generationsOf readItem generationOf chat ++ [generation]))) := by
  rw [Attempt.effect]
  cases hpositive : attempt.generation.filter (0 < ·) with
  | none =>
    refine .inl ⟨.inr fun generation hgeneration => ?_, .notCommitted, rfl, rfl⟩
    rw [hgeneration] at hpositive
    simpa using hpositive
  | some generation =>
    obtain ⟨hgeneration, hpos⟩ := Option.filter_eq_some_iff.1 hpositive
    dsimp only
    rw [appendCwdSwitchLine]
    by_cases hearly : attempt.appendFault = .early
    · rw [if_pos hearly]
      exact .inl ⟨.inl (by simp [Attempt.goesThrough, hearly]), .notCommitted, rfl, rfl⟩
    · rw [if_neg hearly]
      refine .inr ⟨generation, hgeneration, of_decide_eq_true hpos, ?_⟩
      cases hfound : findCwdSwitchGeneration readItem generationOf chat generation with
      | some item => exact .inl ⟨mem_generationsOf.2 ⟨item, hfound⟩, hearly, item, rfl⟩
      | none =>
        have hnew : generation ∉ generationsOf readItem generationOf chat := fun hmem => by
          obtain ⟨item, hitem⟩ := mem_generationsOf.1 hmem
          rw [hfound] at hitem
          cases hitem
        have htorn := generationsOf_tornLine h hgeneration chat
        have hwhole : generationsOf readItem generationOf
            (chat ++ healedLine chat (attempt.text ++ [0x0a])) =
              generationsOf readItem generationOf chat ++ [generation] := by
          have hzero := htorn 0
          rwa [tornLine, Nat.sub_zero, List.take_length] at hzero
        refine .inr ⟨hnew, ?_⟩
        cases hfault : attempt.appendFault with
        | early => exact absurd hfault hearly
        | write missing =>
          refine ⟨_, .inl ⟨.notCommitted, rfl, rfl, ?_⟩⟩
          rw [htorn]
          by_cases hlast : missing + 1 ≤ 1
          · rw [if_pos hlast]
            exact .inr rfl
          · rw [if_neg hlast, List.append_nil]
            exact .inl rfl
        | barrier => exact ⟨_, .inl ⟨.committed, rfl, rfl, .inr hwhole⟩⟩
        | none => exact ⟨_, .inr ⟨rfl, hwhole⟩⟩

end Effects

section Steps

variable {I : Type} {readItem : Bytes → Option I} {generationOf : I → Option ℕ}

/-- The counts agree with the files: a line is counted once at most, and the summary has seen the
generation of every line that is. -/
structure Books (readItem : Bytes → Option I) (generationOf : I → Option ℕ) (t : Tracked) :
    Prop where
  lines : (generationsOf readItem generationOf t.session.chat).Nodup
  positive : 0 ∉ generationsOf readItem generationOf t.session.chat
  once : ∀ generation, t.counted generation ≤ 1
  seen : ∀ generation, t.counted generation = 1 →
    generation ∈ generationsOf readItem generationOf t.session.chat ∧
      generation ≤ t.session.summary.cwdSwitchBookkeepingGeneration
  acknowledged : ∀ generation ∈ t.acknowledged,
    generation ∈ generationsOf readItem generationOf t.session.chat

theorem applyPatch_generation (summary : Summary) (appended : Bool) (generation now : ℕ) :
    (summary.applyPatch (switchPatch appended generation) now).1.cwdSwitchBookkeepingGeneration =
      max summary.cwdSwitchBookkeepingGeneration generation := by
  simp only [Summary.applyPatch, SummaryPatch.raisesGeneration, switchPatch, Option.any_some,
    decide_eq_true_eq, Option.getD_some]
  split
  · next hlt => exact (max_eq_right hlt.le).symm
  · next hle => exact (max_eq_left (Nat.not_lt.1 hle)).symm

theorem chatOp_isSome (summary : Summary) (appended : Bool) (generation : ℕ) :
    ((switchPatch appended generation).chatOp summary).isSome =
      (appended || decide (summary.cwdSwitchBookkeepingGeneration < generation)) := by
  cases appended with
  | true => rfl
  | false =>
    simp only [SummaryPatch.chatOp, switchPatch, SummaryPatch.raisesGeneration, Option.any_some,
      Bool.false_eq_true, if_false, Bool.false_or]
    split
    · next hlt => rw [hlt]; rfl
    · next hle => rw [Bool.not_eq_true _ |>.mp hle]; rfl

/-- An attempt that stops before the bookkeeping changes no more than the chat file. -/
theorem step_stopped {t : Tracked} {attempt : Attempt} {chat : Bytes} {answer : Answer I}
    (heffect : attempt.effect readItem generationOf t.session.chat = { chat, answer })
    (hanswer : answer.isOk = false) :
    t.step readItem generationOf attempt = { t with session := { t.session with chat } } := by
  simp [Tracked.step, appendCwdSwitchWithBookkeeping, adds, heffect, hanswer]

/-- The state behind a patch that took effect. -/
def booked (t : Tracked) (chat : Bytes) (appended ok : Bool) (generation now : ℕ) : Tracked where
  session :=
    ⟨chat, (t.session.summary.applyPatch (switchPatch appended generation) now).1⟩
  counted :=
    if appended || decide (t.session.summary.cwdSwitchBookkeepingGeneration < generation) then
      Function.update t.counted generation (t.counted generation + 1)
    else t.counted
  acknowledged := if ok then generation :: t.acknowledged else t.acknowledged

theorem step_booked {t : Tracked} {attempt : Attempt} {chat : Bytes} {appended : Bool}
    {generation : ℕ} {answer : Answer I} (hgeneration : attempt.generation = some generation)
    (heffect : attempt.effect readItem generationOf t.session.chat =
      bookkeep chat attempt.bookkeepingFault (switchPatch appended generation) answer)
    (hanswer : answer.isOk = true) :
    t.step readItem generationOf attempt =
      if attempt.bookkeepingFault = .patch then { t with session := { t.session with chat } }
      else booked t chat appended (attempt.bookkeepingFault = .none) generation attempt.now := by
  cases hfault : attempt.bookkeepingFault with
  | patch =>
    rw [hfault] at heffect
    exact step_stopped heffect rfl
  | patched =>
    rw [hfault] at heffect
    simp [Tracked.step, appendCwdSwitchWithBookkeeping, adds, heffect, bookkeep, booked,
      hgeneration, chatOp_isSome, Answer.isOk]
  | none =>
    rw [hfault] at heffect
    simp [Tracked.step, appendCwdSwitchWithBookkeeping, adds, heffect, bookkeep, booked,
      hgeneration, chatOp_isSome, hanswer]

/-- The chat file of a state has the lines of another and perhaps one of a new generation. -/
structure Extends (readItem : Bytes → Option I) (generationOf : I → Option ℕ) (t : Tracked)
    (chat : Bytes) : Prop where
  nodup : (generationsOf readItem generationOf chat).Nodup
  positive : 0 ∉ generationsOf readItem generationOf chat
  subset : generationsOf readItem generationOf t.session.chat ⊆
    generationsOf readItem generationOf chat

theorem Books.extends_self {t : Tracked} (h : Books readItem generationOf t) :
    Extends readItem generationOf t t.session.chat :=
  ⟨h.lines, h.positive, List.Subset.refl _⟩

theorem Books.extends_concat {t : Tracked} (h : Books readItem generationOf t) {chat : Bytes}
    {generation : ℕ} (hpos : 0 < generation)
    (hnew : generation ∉ generationsOf readItem generationOf t.session.chat)
    (hchat : generationsOf readItem generationOf chat =
      generationsOf readItem generationOf t.session.chat ++ [generation]) :
    Extends readItem generationOf t chat where
  nodup := by
    rw [hchat]
    refine List.nodup_append.2 ⟨h.lines, by simp, fun a ha b hb heq => hnew ?_⟩
    rwa [← List.mem_singleton.1 hb, ← heq]
  positive := by
    rw [hchat, List.mem_append, List.mem_singleton, not_or]
    exact ⟨h.positive, hpos.ne⟩
  subset := by
    rw [hchat]
    exact List.subset_append_left _ _

theorem Books.withChat {t : Tracked} (h : Books readItem generationOf t) {chat : Bytes}
    (hchat : Extends readItem generationOf t chat) :
    Books readItem generationOf { t with session := { t.session with chat } } where
  lines := hchat.nodup
  positive := hchat.positive
  once := h.once
  seen generation hcounted := ⟨hchat.subset (h.seen generation hcounted).1,
    (h.seen generation hcounted).2⟩
  acknowledged generation hmem := hchat.subset (h.acknowledged generation hmem)

theorem Books.counted_cases {t : Tracked} (h : Books readItem generationOf t) (generation : ℕ) :
    t.counted generation = 0 ∨ t.counted generation = 1 := by
  have honce := h.once generation
  omega

/-- A line that an attempt adds to the counter was not counted before. -/
theorem Books.counted_eq_zero {t : Tracked} (h : Books readItem generationOf t) {appended : Bool}
    {generation : ℕ}
    (hnew : appended = true → generation ∉ generationsOf readItem generationOf t.session.chat)
    (hadds : appended = true ∨ t.session.summary.cwdSwitchBookkeepingGeneration < generation) :
    t.counted generation = 0 := by
  refine (h.counted_cases generation).resolve_right fun hone => ?_
  obtain ⟨hmem, hseen⟩ := h.seen generation hone
  rcases hadds with happended | hlt
  · exact hnew happended hmem
  · exact Nat.not_lt.2 hseen hlt

theorem counted_booked (t : Tracked) (chat : Bytes) (appended ok : Bool) (generation now g : ℕ) :
    (booked t chat appended ok generation now).counted g =
      if g = generation ∧
          (appended = true ∨ t.session.summary.cwdSwitchBookkeepingGeneration < generation) then
        t.counted g + 1
      else t.counted g := by
  rw [booked]
  by_cases hadds : appended = true ∨ t.session.summary.cwdSwitchBookkeepingGeneration < generation
  · have hadds' : (appended ||
        decide (t.session.summary.cwdSwitchBookkeepingGeneration < generation)) = true := by
      simpa using hadds
    simp only [hadds', if_true, hadds, and_true]
    by_cases heq : g = generation
    · rw [heq, Function.update_self, if_pos rfl]
    · rw [Function.update_of_ne heq, if_neg heq]
  · have hadds' : (appended ||
        decide (t.session.summary.cwdSwitchBookkeepingGeneration < generation)) = false := by
      simpa using hadds
    simp [hadds', hadds]

/-- Behind a patch the books agree again. -/
theorem Books.booked {t : Tracked} (h : Books readItem generationOf t) {chat : Bytes}
    (hchat : Extends readItem generationOf t chat) {appended : Bool} (ok : Bool) {generation : ℕ}
    (hmem : generation ∈ generationsOf readItem generationOf chat)
    (hnew : appended = true → generation ∉ generationsOf readItem generationOf t.session.chat)
    (now : ℕ) : Books readItem generationOf (booked t chat appended ok generation now) where
  lines := hchat.nodup
  positive := hchat.positive
  once g := by
    rw [counted_booked]
    split
    · next hadds => rw [hadds.1, h.counted_eq_zero hnew hadds.2]
    · exact h.once g
  seen g hone := by
    rw [counted_booked] at hone
    rw [Storage.booked, applyPatch_generation]
    split at hone
    · next hadds =>
      rw [hadds.1]
      exact ⟨hmem, le_max_right _ _⟩
    · obtain ⟨hthere, hseen⟩ := h.seen g hone
      exact ⟨hchat.subset hthere, hseen.trans (le_max_left _ _)⟩
  acknowledged g hack := by
    rw [Storage.booked] at hack
    dsimp only at hack
    split at hack
    · rcases List.mem_cons.1 hack with rfl | hbefore
      · exact hmem
      · exact hchat.subset (h.acknowledged g hbefore)
    · exact hchat.subset (h.acknowledged g hack)

/-- What was acknowledged stays counted, and the attempt's own line is if it is added now or was
before. -/
theorem Books.counts_booked {t : Tracked} (h : Books readItem generationOf t) (chat : Bytes)
    {appended ok : Bool} {generation : ℕ}
    (hnew : appended = true → generation ∉ generationsOf readItem generationOf t.session.chat)
    (now : ℕ) (hcounts : ∀ g ∈ t.acknowledged, t.counted g = 1) :
    (∀ g ∈ (Storage.booked t chat appended ok generation now).acknowledged,
        (Storage.booked t chat appended ok generation now).counted g = 1) ↔
      (ok = true → t.counted generation = 0 →
        appended = true ∨ t.session.summary.cwdSwitchBookkeepingGeneration < generation) := by
  have hbefore : ∀ g ∈ t.acknowledged,
      (Storage.booked t chat appended ok generation now).counted g = 1 := by
    intro g hack
    rw [counted_booked]
    split
    · next hadds =>
      have hone := hcounts g hack
      rw [hadds.1, h.counted_eq_zero hnew hadds.2] at hone
      cases hone
    · exact hcounts g hack
  cases ok with
  | false => exact iff_of_true hbefore fun hok => by (cases hok)
  | true =>
    have hown : (Storage.booked t chat appended true generation now).counted generation = 1 ↔
        (t.counted generation = 0 →
          appended = true ∨ t.session.summary.cwdSwitchBookkeepingGeneration < generation) := by
      rw [counted_booked]
      by_cases hadds : appended = true ∨
          t.session.summary.cwdSwitchBookkeepingGeneration < generation
      · rw [if_pos ⟨rfl, hadds⟩, h.counted_eq_zero hnew hadds]
        exact iff_of_true rfl fun _ => hadds
      · rw [if_neg fun h => hadds h.2]
        rcases h.counted_cases generation with hzero | hone
        · simp [hzero, hadds]
        · simp [hone]
    constructor
    · intro hall _
      exact hown.1 (hall generation (List.mem_cons_self ..))
    · intro hcond g hack
      rcases List.mem_cons.1 hack with rfl | hold
      · exact hown.2 (hcond rfl)
      · exact hbefore g hold

/-- An attempt keeps the books, and what is acknowledged is counted behind it exactly if it does
not come behind the bookkeeping of a higher generation. -/
theorem Books.step {t : Tracked} (h : Books readItem generationOf t) {attempt : Attempt}
    (hencodes : Encodes readItem generationOf attempt) :
    Books readItem generationOf (t.step readItem generationOf attempt) ∧
      ((∀ g ∈ t.acknowledged, t.counted g = 1) →
        ((∀ g ∈ (t.step readItem generationOf attempt).acknowledged,
            (t.step readItem generationOf attempt).counted g = 1) ↔
          BooksBeforeHigher readItem generationOf t attempt)) := by
  rcases Attempt.effect_cases hencodes t.session.chat with
    ⟨hstops, answer, hanswer, heffect⟩ |
    ⟨generation, hgeneration, hpos, hfound | ⟨hnew, chat, hwritten⟩⟩
  · rw [step_stopped heffect hanswer]
    refine ⟨h, fun hcounts => iff_of_true hcounts fun generation hgeneration hthrough hmem => ?_⟩
    rcases hstops with hfails | hzero
    · rw [hfails] at hthrough
      cases hthrough
    · rw [hzero generation hgeneration] at hmem
      exact absurd hmem h.positive
  · obtain ⟨hmem, hearly, item, heffect⟩ := hfound
    rw [step_booked hgeneration heffect rfl]
    have hnot : (false : Bool) = true →
        generation ∉ generationsOf readItem generationOf t.session.chat :=
      fun hfalse => by (cases hfalse)
    have hthrough : attempt.goesThrough = true ↔ attempt.bookkeepingFault = .none := by
      simp [Attempt.goesThrough, hearly]
    by_cases hpatch : attempt.bookkeepingFault = .patch
    · rw [if_pos hpatch]
      refine ⟨h, fun hcounts => iff_of_true hcounts fun _ _ hgoes => ?_⟩
      rw [hthrough, hpatch] at hgoes
      cases hgoes
    · rw [if_neg hpatch]
      refine ⟨h.booked h.extends_self _ hmem hnot _, fun hcounts => ?_⟩
      rw [h.counts_booked _ hnot _ hcounts]
      constructor
      · intro hcond generation' hgeneration' hgoes _ hzero
        obtain rfl := Option.some_inj.1 (hgeneration.symm.trans hgeneration')
        exact (hcond (decide_eq_true (hthrough.1 hgoes)) hzero).resolve_left Bool.false_ne_true
      · intro hcond hok hzero
        exact .inr (hcond generation hgeneration (hthrough.2 (of_decide_eq_true hok)) hmem hzero)
  · have hvacuous : BooksBeforeHigher readItem generationOf t attempt := by
      intro generation' hgeneration' _ hmem
      obtain rfl := Option.some_inj.1 (hgeneration.symm.trans hgeneration')
      exact absurd hmem hnew
    rcases hwritten with ⟨answer, hanswer, heffect, hsame | hconcat⟩ | ⟨heffect, hconcat⟩
    · rw [step_stopped heffect hanswer]
      have hchat : Extends readItem generationOf t chat := by
        constructor
        · rw [hsame]
          exact h.lines
        · rw [hsame]
          exact h.positive
        · rw [hsame]
          exact List.Subset.refl _
      exact ⟨h.withChat hchat, fun hcounts => iff_of_true hcounts hvacuous⟩
    · rw [step_stopped heffect hanswer]
      exact ⟨h.withChat (h.extends_concat hpos hnew hconcat),
        fun hcounts => iff_of_true hcounts hvacuous⟩
    · have hchat := h.extends_concat hpos hnew hconcat
      have hmem : generation ∈ generationsOf readItem generationOf chat := by
        rw [hconcat]
        exact List.mem_append_right _ (List.mem_singleton_self _)
      rw [step_booked hgeneration heffect rfl]
      by_cases hpatch : attempt.bookkeepingFault = .patch
      · rw [if_pos hpatch]
        exact ⟨h.withChat hchat, fun hcounts => iff_of_true hcounts hvacuous⟩
      · rw [if_neg hpatch]
        refine ⟨h.booked hchat _ hmem (fun _ => hnew) _, fun hcounts => ?_⟩
        rw [h.counts_booked _ (fun _ => hnew) _ hcounts]
        exact iff_of_true (fun _ _ => .inl rfl) hvacuous

end Steps

section Runs

variable {I : Type} {readItem : Bytes → Option I} {generationOf : I → Option ℕ}

/-- The books of a session that has no switch yet. -/
theorem books_start (session : Session)
    (hfresh : generationsOf readItem generationOf session.chat = []) :
    Books readItem generationOf { session } where
  lines := by rw [hfresh]; exact List.nodup_nil
  positive := by rw [hfresh]; exact List.not_mem_nil
  once _ := Nat.zero_le 1
  seen generation hone := by cases hone
  acknowledged generation hmem := by cases hmem

theorem countedOnce_run_iff {t : Tracked} (h : Books readItem generationOf t)
    (hcounts : ∀ g ∈ t.acknowledged, t.counted g = 1) {attempts : List Attempt}
    (hencodes : ∀ attempt ∈ attempts, Encodes readItem generationOf attempt) :
    (∀ before, before <+: attempts → CountedOnce readItem generationOf
        (StepRun.run (Tracked.step readItem generationOf) t before)) ↔
      StepRun.Meets (Tracked.step readItem generationOf)
        (BooksBeforeHigher readItem generationOf) t attempts := by
  induction attempts generalizing t with
  | nil =>
    refine iff_of_true (fun before hbefore => ?_) trivial
    rw [List.prefix_nil.1 hbefore]
    exact ⟨h.lines, hcounts⟩
  | cons attempt attempts ih =>
    obtain ⟨hbooks, hiff⟩ := h.step (hencodes attempt (List.mem_cons_self ..))
    have hrest := fun attempt' hmem => hencodes attempt' (List.mem_cons_of_mem attempt hmem)
    constructor
    · intro hall
      have hfirst := (hall [attempt] (by simp)).counts
      refine ⟨(hiff hcounts).1 hfirst, (ih hbooks hfirst hrest).1 fun before hbefore => ?_⟩
      exact hall (attempt :: before) (List.cons_prefix_cons.2 ⟨rfl, hbefore⟩)
    · rintro ⟨hcond, hmeets⟩ before hbefore
      have hfirst := (hiff hcounts).2 hcond
      cases before with
      | nil => exact ⟨h.lines, hcounts⟩
      | cons attempt' before =>
        obtain ⟨rfl, hbefore'⟩ := List.cons_prefix_cons.1 hbefore
        exact (ih hbooks hfirst hrest).2 hmeets before hbefore'

/-- In every state of a run the switches are on one line each and counted once where they are
acknowledged, exactly if no attempt of the run that finds its line uncounted comes behind the
bookkeeping of a higher generation. -/
theorem countedOnce_iff (session : Session) (attempts : List Attempt)
    (hfresh : generationsOf readItem generationOf session.chat = [])
    (hencodes : ∀ attempt ∈ attempts, Encodes readItem generationOf attempt) :
    (∀ before, before <+: attempts → CountedOnce readItem generationOf
        (StepRun.run (Tracked.step readItem generationOf) { session } before)) ↔
      StepRun.Meets (Tracked.step readItem generationOf)
        (BooksBeforeHigher readItem generationOf) { session } attempts :=
  countedOnce_run_iff (books_start session hfresh) (fun _ hmem => by (cases hmem)) hencodes

def digitGeneration (digit : UInt8) : Option ℕ := some (digit.toNat - 0x30)

theorem encodes_digit {digit : UInt8} (h : digit = 0x31 ∨ digit = 0x32) (fault : Fault)
    (bookkeepingFault : BookkeepingFault) (now : ℕ) :
    Encodes readDigit digitGeneration
      ⟨digitObject digit, digitGeneration digit, fault, bookkeepingFault, now⟩ where
  record := isRecord_digitObject h
  generation := by
    rcases h with rfl | rfl
    · rfl
    · rfl

def firstSwitch (bookkeepingFault : BookkeepingFault) (now : ℕ) : Attempt :=
  ⟨digitObject 0x31, digitGeneration 0x31, .none, bookkeepingFault, now⟩

def secondSwitch (now : ℕ) : Attempt :=
  ⟨digitObject 0x32, digitGeneration 0x32, .none, .none, now⟩

/-- The summary patch of the first switch fails, and the second switch goes through before the
first is tried again. -/
theorem retry_behind_higher_not_counted :
    ¬∀ before, before <+: [firstSwitch .patch 0, secondSwitch 1, firstSwitch .none 2] →
      CountedOnce readDigit digitGeneration
        (StepRun.run (Tracked.step readDigit digitGeneration) { session := {} } before) := by
  intro hall
  have hcounts := (hall _ List.prefix_rfl).counts 1 (by decide)
  exact absurd hcounts (by decide)

/-- Tried again at once, it is counted. -/
theorem retry_before_higher_counted :
    CountedOnce readDigit digitGeneration
      (StepRun.run (Tracked.step readDigit digitGeneration) { session := {} }
        [firstSwitch .patch 0, firstSwitch .none 1, secondSwitch 2]) ∧
    ∀ before, before <+: [firstSwitch .patch 0, firstSwitch .none 1, secondSwitch 2] →
      CountedOnce readDigit digitGeneration
        (StepRun.run (Tracked.step readDigit digitGeneration) { session := {} } before) := by
  suffices hall : ∀ before, before <+: [firstSwitch .patch 0, firstSwitch .none 1, secondSwitch 2] →
      CountedOnce readDigit digitGeneration
        (StepRun.run (Tracked.step readDigit digitGeneration) { session := {} } before) from
    ⟨hall _ List.prefix_rfl, hall⟩
  refine (countedOnce_iff {} _ rfl fun attempt hmem => ?_).2 ⟨?_, ?_, ?_, trivial⟩
  · simp only [List.mem_cons, List.not_mem_nil, or_false] at hmem
    rcases hmem with rfl | rfl | rfl
    · exact encodes_digit (.inl rfl) _ _ _
    · exact encodes_digit (.inl rfl) _ _ _
    · exact encodes_digit (.inr rfl) _ _ _
  · intro generation hgeneration hthrough
    exact absurd hthrough (by decide)
  · intro generation hgeneration _ _ _
    obtain rfl : generation = 1 := Option.some_inj.1 hgeneration.symm
    decide
  · intro generation hgeneration _ hmem
    obtain rfl : generation = 2 := Option.some_inj.1 hgeneration.symm
    exact absurd hmem (by decide)

end Runs

end GrokBuild.Storage
