import GrokBuild.Lib.StepRun
import GrokBuild.Workflow.Journal

/-!
# A journal under faults

Runs of a journal and its file: appends that fail or are cut short by a crash, pruning and
restarts. The ledger is what the journal is for: the entries recorded and not pruned, and
the entry of an append whose whole line reached the disk before a crash.
-/

namespace GrokBuild.Workflow

open StepRun

/-- What is known of the encoding of one entry: it decodes, has no newline, begins with the
brace of an object, and no shorter beginning of it decodes. -/
structure Lawful (codec : Codec) (e : JournalEntry) : Prop where
  decode : codec.decode (codec.encode e) = some e
  newline_not_mem : newline ∉ codec.encode e
  brace : (codec.encode e).head? = some 123
  torn : ∀ k < (codec.encode e).length, codec.decode ((codec.encode e).take k) = none

structure Store where
  journal : Except JournalError Journal
  file : Option (List UInt8)
  ledger : List JournalEntry

inductive Op where
  | record (entry : JournalEntry) (append : Append)
  | crash (entry : JournalEntry) (persisted : ℕ)
  | prune (failureDetail : Text.Str)
  | restart

/-- Recording gets as far as the append. -/
def Reaches (codec : Codec) (j : Journal) (entry : JournalEntry) : Prop :=
  entry.seq = j.entries.length ∧
    saturatingAdd j.bytes (line codec entry).length ≤ maxJournalBytes

instance (codec : Codec) (j : Journal) (entry : JournalEntry) :
    Decidable (Reaches codec j entry) := by
  unfold Reaches
  infer_instance

namespace Store

def start : Store := ⟨.ok .new, none, []⟩

def reload (codec : Codec) (file : Option (List UInt8)) (ledger : List JournalEntry) : Store :=
  match load codec file with
  | .error e => ⟨.error e, file, ledger⟩
  | .ok (j, file) => ⟨.ok j, file, ledger⟩

/-- A journal that could not be loaded takes no further step. -/
def step (codec : Codec) (s : Store) (op : Op) : Store :=
  match s.journal with
  | .error _ => s
  | .ok j =>
    match op with
    | .record entry append =>
      match record codec j s.file entry append with
      | (.ok (), j, file) => ⟨.ok j, file, s.ledger ++ [entry]⟩
      | (.error _, j, file) => ⟨.ok j, file, s.ledger⟩
    | .crash entry persisted =>
      reload codec (record codec j s.file entry (.fails persisted)).2.2
        (if Reaches codec j entry ∧ (codec.encode entry).length ≤ persisted then
          s.ledger ++ [entry] else s.ledger)
    | .prune detail =>
      match pruneTrailingHostError j s.file detail with
      | (.ok true, j, file) => ⟨.ok j, file, s.ledger.dropLast⟩
      | (_, j, file) => ⟨.ok j, file, s.ledger⟩
    | .restart => reload codec s.file s.ledger

/-- No append fails in the running process with part of its line on the disk, and none is
made beyond the entries that a restart accepts. -/
def Sound (codec : Codec) (s : Store) : Op → Prop
  | .record entry append => Lawful codec entry ∧ ∀ j, s.journal = .ok j → Reaches codec j entry →
      j.entries.length < maxJournalEntries ∧ ∀ n, append ≠ .fails (n + 1)
  | .crash entry _ => Lawful codec entry ∧ ∀ j, s.journal = .ok j → Reaches codec j entry →
      j.entries.length < maxJournalEntries
  | .prune _ => True
  | .restart => True

end Store

/-! ## Lines and frames -/

variable {codec : Codec} {es : List JournalEntry}

def content (codec : Codec) (es : List JournalEntry) : List UInt8 := es.flatMap (line codec)

@[simp] theorem content_nil : content codec [] = [] := rfl

theorem content_append (es es' : List JournalEntry) :
    content codec (es ++ es') = content codec es ++ content codec es' :=
  List.flatMap_append

@[simp] theorem content_singleton (e : JournalEntry) : content codec [e] = line codec e := by
  simp [content]

theorem content_concat (es : List JournalEntry) (e : JournalEntry) :
    content codec (es ++ [e]) = content codec es ++ line codec e := by
  rw [content_append, content_singleton]

theorem frames_tail {tail : List UInt8} (h : newline ∉ tail) : frames tail = ([], tail) := by
  induction tail with
  | nil => rfl
  | cons b tail ih =>
    simp only [List.mem_cons, not_or] at h
    rw [frames, ih h.2]
    simp [Ne.symm h.1]

theorem frames_line {l : List UInt8} (h : newline ∉ l) (rest : List UInt8) :
    frames (l ++ newline :: rest) = (l :: (frames rest).1, (frames rest).2) := by
  induction l with
  | nil => simp [frames]
  | cons b l ih =>
    simp only [List.mem_cons, not_or] at h
    rw [List.cons_append, frames, ih h.2]
    simp [Ne.symm h.1]

theorem frames_content (hl : ∀ e ∈ es, Lawful codec e) {tail : List UInt8} (h : newline ∉ tail) :
    frames (content codec es ++ tail) = (es.map codec.encode, tail) := by
  induction es with
  | nil => exact frames_tail h
  | cons e es ih =>
    have hrec := ih fun e' he' => hl e' (List.mem_cons_of_mem _ he')
    have hsplit : content codec (e :: es) ++ tail =
        codec.encode e ++ newline :: (content codec es ++ tail) := by
      simp [content, line]
    rw [hsplit, frames_line (hl e List.mem_cons_self).newline_not_mem, hrec]
    rfl

/-! ## What loading finds -/

/-- Where the last entry of the file starts. -/
def lastStart (codec : Codec) (es : List JournalEntry) : Option ℕ :=
  if es = [] then none else some (content codec es.dropLast).length

theorem lastStart_concat (es : List JournalEntry) (e : JournalEntry) :
    lastStart codec (es ++ [e]) = some (content codec es).length := by
  simp [lastStart]

def Dense (es : List JournalEntry) : Prop :=
  ∀ (i : ℕ) (e : JournalEntry), es[i]? = some e → e.seq = i

theorem Dense.concat (h : Dense es) {e : JournalEntry} (he : e.seq = es.length) :
    Dense (es ++ [e]) := by
  intro i e' hi
  rcases Nat.lt_trichotomy i es.length with hlt | heq | hgt
  · rw [List.getElem?_append_left hlt] at hi
    exact h i e' hi
  · rw [heq, List.getElem?_concat_length] at hi
    cases hi
    rw [he, heq]
  · rw [List.getElem?_eq_none (by simp; omega)] at hi
    cases hi

theorem Dense.append_left {es' : List JournalEntry} (h : Dense (es ++ es')) : Dense es := by
  intro i e hi
  apply h i e
  rw [List.getElem?_append_left (List.getElem?_eq_some_iff.mp hi).1]
  exact hi

/-- A list of entries that a restart accepts. -/
structure Loadable (codec : Codec) (es : List JournalEntry) : Prop where
  lawful : ∀ e ∈ es, Lawful codec e
  dense : Dense es
  count : es.length ≤ maxJournalEntries
  size : (content codec es).length ≤ maxJournalBytes

theorem Lawful.not_blank {e : JournalEntry} (h : Lawful codec e) :
    (codec.encode e).all isAsciiWhitespace = false := by
  cases henc : codec.encode e with
  | nil =>
    have := h.brace
    rw [henc] at this
    cases this
  | cons b rest =>
    have := h.brace
    rw [henc] at this
    cases this
    simp [isAsciiWhitespace]

theorem takeEntry_next {e : JournalEntry} (hl : Lawful codec e) (hseq : e.seq = es.length)
    (hcount : es.length < maxJournalEntries) (lineNumber : ℕ) :
    takeEntry codec ⟨es, lastStart codec es, (content codec es).length⟩ lineNumber
      (codec.encode e) =
      .ok ⟨es ++ [e], lastStart codec (es ++ [e]), (content codec es).length⟩ := by
  have hle : ¬ maxJournalEntries ≤ es.length := by omega
  simp [takeEntry, hl.decode, hle, validateSequence, hseq, lastStart_concat]

theorem loadLines_content {rest : List JournalEntry} (h : Loadable codec (es ++ rest))
    (lineNumber : ℕ) :
    loadLines codec lineNumber ⟨es, lastStart codec es, (content codec es).length⟩
      (rest.map codec.encode) =
      .ok ⟨es ++ rest, lastStart codec (es ++ rest), (content codec (es ++ rest)).length⟩ := by
  induction rest generalizing es lineNumber with
  | nil => simp [loadLines]
  | cons e rest ih =>
    have hl := h.lawful e (by simp)
    have hseq : e.seq = es.length := h.dense es.length e (by simp)
    have hcount : es.length < maxJournalEntries := by
      have := h.count
      simp only [List.length_append, List.length_cons] at this
      omega
    have happ : es ++ e :: rest = (es ++ [e]) ++ rest := by simp
    rw [happ] at h
    have hoffset : (content codec es).length + (codec.encode e).length + 1 =
        (content codec (es ++ [e])).length := by
      rw [content_concat]
      simp [line]
      omega
    simp only [List.map_cons, loadLines, hl.not_blank, takeEntry_next hl hseq hcount, hoffset]
    rw [if_neg (by decide), ih h, happ]

/-- What a crash can leave after the lines of a journal: nothing, part of a line, or a line
without its newline. -/
inductive Left (codec : Codec) (es : List JournalEntry) : List UInt8 → List JournalEntry → Prop
  | nothing : Left codec es [] es
  | torn (e : JournalEntry) (k : ℕ) (hl : Lawful codec e) (hk : k < (codec.encode e).length) :
      Left codec es ((codec.encode e).take k) es
  | whole (e : JournalEntry) (h : Loadable codec (es ++ [e])) :
      Left codec es (codec.encode e) (es ++ [e])

theorem newline_not_mem_left {tail : List UInt8} {es' : List JournalEntry}
    (h : Left codec es tail es') : newline ∉ tail := by
  cases h with
  | nothing => simp
  | torn e k hl hk => exact fun hm => hl.newline_not_mem (List.mem_of_mem_take hm)
  | whole e h => exact (h.lawful e (by simp)).newline_not_mem

theorem loadTail_left {tail : List UInt8} {es' : List JournalEntry} (h : Left codec es tail es')
    (lineNumber : ℕ) :
    loadTail codec lineNumber ⟨es, lastStart codec es, (content codec es).length⟩
      (content codec es ++ tail) tail =
      .ok (⟨es', lastStart codec es', (content codec es).length⟩, content codec es',
        (content codec es').length) := by
  have hcut : (content codec es ++ tail).take (content codec es).length = content codec es := by
    simp
  cases h with
  | nothing => simp [loadTail]
  | torn e k hl hk =>
    have hnone := hl.torn k hk
    by_cases hempty : (codec.encode e).take k = []
    · simp [loadTail, hempty]
    · simp [loadTail, hempty, hnone]
  | whole e h =>
    have hl := h.lawful e (by simp)
    have hseq : e.seq = es.length := h.dense es.length e (by simp)
    have hcount : es.length < maxJournalEntries := by
      have := h.count
      simp only [List.length_append, List.length_singleton] at this
      omega
    have hne : codec.encode e ≠ [] := by
      intro hn
      have := hl.brace
      rw [hn] at this
      cases this
    have hfile : content codec es ++ codec.encode e ++ [newline] = content codec (es ++ [e]) := by
      rw [content_concat]
      simp [line]
    have hbytes : saturatingAdd (content codec es ++ codec.encode e).length 1 =
        (content codec (es ++ [e])).length := by
      have hsize := h.size
      rw [← hfile] at hsize ⊢
      simp only [List.length_append, List.length_singleton, maxJournalBytes] at hsize ⊢
      unfold saturatingAdd
      omega
    simp only [loadTail, if_neg hne, hl.not_blank, Bool.false_eq_true, if_false, hl.decode,
      takeEntry_next hl hseq hcount, hfile, hbytes]

/-- Loading the lines of a journal with what a crash left behind them. -/
theorem load_left (h : Loadable codec es) {tail : List UInt8} {es' : List JournalEntry}
    (hleft : Left codec es tail es') (hsize : (content codec es ++ tail).length ≤ maxJournalBytes)
    {file : Option (List UInt8)} (hfile : file.getD [] = content codec es ++ tail) :
    load codec file = .ok (⟨es', (content codec es').length, lastStart codec es'⟩,
      file.map fun _ => content codec es') := by
  have hall : Loadable codec ([] ++ es) := by simpa using h
  have hlines := loadLines_content hall 1
  have htail := loadTail_left hleft ((es.map codec.encode).length + 1)
  have hfit : ¬ maxJournalBytes < (content codec es ++ tail).length := by omega
  simp only [List.nil_append, content_nil, List.length_nil] at hlines
  simp only [load, hfile, if_neg hfit, frames_content h.lawful (newline_not_mem_left hleft)]
  rw [show ({} : Loading) = ⟨[], lastStart codec [], 0⟩ from rfl, hlines]
  simp only [htail]

/-! ## Steps -/

/-- The journal in memory, the file and the ledger agree. -/
structure Faithful (codec : Codec) (j : Journal) (file : Option (List UInt8))
    (ledger : List JournalEntry) : Prop where
  entries : j.entries = ledger
  loadable : Loadable codec ledger
  file_eq : file.getD [] = content codec ledger
  bytes_eq : j.bytes = (content codec ledger).length
  lastLineStart_eq : ∀ off, j.lastLineStart = some off → lastStart codec ledger = some off

variable {j : Journal} {file : Option (List UInt8)} {ledger : List JournalEntry}

theorem saturatingAdd_eq {a b : ℕ} (h : saturatingAdd a b ≤ maxJournalBytes) :
    saturatingAdd a b = a + b := by
  unfold saturatingAdd maxJournalBytes at *
  omega

theorem record_of_not_reaches {entry : JournalEntry} (h : ¬ Reaches codec j entry)
    (file : Option (List UInt8)) (append : Append) : ∃ e, record codec j file entry append = (.error e, j, file) := by
  unfold Reaches at h
  by_cases hseq : entry.seq = j.entries.length
  · have hbytes : maxJournalBytes < saturatingAdd j.bytes (line codec entry).length := by
      by_contra hle
      exact h ⟨hseq, by omega⟩
    refine ⟨.full entry.seq maxJournalBytes, ?_⟩
    simp [record, validateSequence, hseq, hbytes]
  · refine ⟨.sequence j.entries.length j.entries.length entry.seq, ?_⟩
    simp [record, validateSequence, hseq]

theorem record_done {entry : JournalEntry} (h : Reaches codec j entry) :
    record codec j file entry .done =
      (.ok (), ⟨j.entries ++ [entry], saturatingAdd j.bytes (line codec entry).length,
        some j.bytes⟩, some (file.getD [] ++ line codec entry)) := by
  have hle : ¬ maxJournalBytes < saturatingAdd j.bytes (line codec entry).length := by
    have := h.2
    omega
  simp [record, validateSequence, h.1, hle, appendLine]

theorem record_fails {entry : JournalEntry} (h : Reaches codec j entry) (n : ℕ) :
    record codec j file entry (.fails n) =
      (.error .io, j, if n = 0 then file else some (file.getD [] ++ (line codec entry).take n)) := by
  have hle : ¬ maxJournalBytes < saturatingAdd j.bytes (line codec entry).length := by
    have := h.2
    omega
  cases n <;> simp [record, validateSequence, h.1, hle, appendLine]

/-- A record that fails leaves the journal in memory as it was. -/
theorem record_error {entry : JournalEntry} {append : Append} {e : JournalError} {j' : Journal}
    {file' : Option (List UInt8)} (h : record codec j file entry append = (.error e, j', file')) :
    j' = j := by
  by_cases hr : Reaches codec j entry
  · cases append with
    | done =>
      rw [record_done hr] at h
      cases h
    | fails n =>
      rw [record_fails hr] at h
      cases h
      rfl
  · obtain ⟨e', he⟩ := record_of_not_reaches hr file append
    rw [he] at h
    cases h
    rfl

theorem Loadable.concat (h : Faithful codec j file ledger) {entry : JournalEntry}
    (hl : Lawful codec entry) (hr : Reaches codec j entry)
    (hcount : j.entries.length < maxJournalEntries) : Loadable codec (ledger ++ [entry]) := by
  have hseq := hr.1
  rw [h.entries] at hseq hcount
  have hsize : (content codec (ledger ++ [entry])).length ≤ maxJournalBytes := by
    rw [content_concat, List.length_append, ← h.bytes_eq, ← saturatingAdd_eq hr.2]
    exact hr.2
  refine ⟨?_, h.loadable.dense.concat hseq, ?_, hsize⟩
  · intro e he
    rcases List.mem_append.mp he with he | he
    · exact h.loadable.lawful e he
    · rw [List.mem_singleton.mp he]
      exact hl
  · rw [List.length_append, List.length_singleton]
    omega

theorem Loadable.of_concat {e : JournalEntry} (h : Loadable codec (es ++ [e])) :
    Loadable codec es := by
  refine ⟨fun e' he' => h.lawful e' (by simp [he']), h.dense.append_left, ?_, ?_⟩
  · have := h.count
    simp only [List.length_append, List.length_singleton] at this
    omega
  · have := h.size
    rw [content_concat, List.length_append] at this
    omega

theorem Faithful.record_done (h : Faithful codec j file ledger) {entry : JournalEntry}
    (hl : Lawful codec entry) (hr : Reaches codec j entry)
    (hcount : j.entries.length < maxJournalEntries) :
    Faithful codec ⟨j.entries ++ [entry], saturatingAdd j.bytes (line codec entry).length,
      some j.bytes⟩ (some (file.getD [] ++ line codec entry)) (ledger ++ [entry]) := by
  refine ⟨by rw [h.entries], Loadable.concat h hl hr hcount, ?_, ?_, ?_⟩
  · rw [Option.getD_some, h.file_eq, content_concat]
  · rw [saturatingAdd_eq hr.2, h.bytes_eq, content_concat, List.length_append]
  · intro off hoff
    rw [lastStart_concat, ← h.bytes_eq]
    exact hoff

theorem Lawful.encode_ne_nil {e : JournalEntry} (h : Lawful codec e) : codec.encode e ≠ [] := by
  intro hn
  have := h.brace
  rw [hn] at this
  cases this

theorem Left.loadable {tail : List UInt8} {es' : List JournalEntry} (h : Loadable codec es)
    (hleft : Left codec es tail es') : Loadable codec es' := by
  cases hleft with
  | nothing => exact h
  | torn e k hl hk => exact h
  | whole e h' => exact h'

theorem faithful_load (h : Loadable codec es) {tail : List UInt8} {es' : List JournalEntry}
    (hleft : Left codec es tail es') (hfile : file.getD [] = content codec es ++ tail) :
    Faithful codec ⟨es', (content codec es').length, lastStart codec es'⟩
      (file.map fun _ => content codec es') es' := by
  refine ⟨rfl, hleft.loadable h, ?_, rfl, fun _ hoff => hoff⟩
  cases file with
  | some bytes => rfl
  | none =>
    obtain ⟨hnil, htail⟩ := List.append_eq_nil_iff.mp hfile.symm
    cases hleft with
    | nothing => exact hnil.symm
    | torn e k hl hk => exact hnil.symm
    | whole e h' => exact absurd htail (h'.lawful e (by simp)).encode_ne_nil

/-- The journal is open, and it is faithful to the file and the ledger. -/
def Good (codec : Codec) (s : Store) : Prop :=
  ∃ j, s.journal = .ok j ∧ Faithful codec j s.file s.ledger

/-- A process that finds the lines of a loadable journal with what a crash left behind them
goes on with a faithful journal. -/
theorem good_reload_left (h : Loadable codec es) {tail : List UInt8} {es' : List JournalEntry}
    (hleft : Left codec es tail es') (hsize : (content codec es ++ tail).length ≤ maxJournalBytes)
    (hfile : file.getD [] = content codec es ++ tail) :
    Good codec (Store.reload codec file es') := by
  simp only [Store.reload, load_left h hleft hsize hfile]
  exact ⟨_, rfl, faithful_load h hleft hfile⟩

theorem Loadable.good_reload (h : Loadable codec es) (hfile : file.getD [] = content codec es) :
    Good codec (Store.reload codec file es) :=
  good_reload_left h .nothing (by simpa using h.size) (by simpa using hfile)

variable {entry : JournalEntry}

/-- A crash before the entry is whole: what was written of it is cut off. -/
theorem Faithful.crash_torn (h : Faithful codec j file ledger) (hl : Lawful codec entry)
    (hr : Reaches codec j entry) (hcount : j.entries.length < maxJournalEntries) {n : ℕ}
    (hn : n < (codec.encode entry).length) :
    Good codec (Store.reload codec (record codec j file entry (.fails n)).2.2 ledger) := by
  rw [record_fails hr]
  by_cases hzero : n = 0
  · rw [if_pos hzero]
    exact h.loadable.good_reload h.file_eq
  · have hsize : (content codec (ledger ++ [entry])).length ≤ maxJournalBytes :=
      (Loadable.concat h hl hr hcount).size
    have htake : (line codec entry).take n = (codec.encode entry).take n :=
      List.take_append_of_le_length (by omega)
    rw [if_neg hzero]
    apply good_reload_left h.loadable (.torn entry n hl hn)
    · rw [content_concat, line, List.length_append, List.length_append] at hsize
      rw [List.length_append, List.length_take]
      omega
    · rw [Option.getD_some, h.file_eq, htake]

/-- A crash after the entry is whole, with its newline or without. -/
theorem Faithful.crash_whole (h : Faithful codec j file ledger) (hl : Lawful codec entry)
    (hr : Reaches codec j entry) (hcount : j.entries.length < maxJournalEntries) {n : ℕ}
    (hn : (codec.encode entry).length ≤ n) :
    Good codec
      (Store.reload codec (record codec j file entry (.fails n)).2.2 (ledger ++ [entry])) := by
  have hnext := Loadable.concat h hl hr hcount
  have hpos : 0 < (codec.encode entry).length := List.length_pos_iff.mpr hl.encode_ne_nil
  rw [record_fails hr, if_neg (by omega)]
  rcases Nat.eq_or_lt_of_le hn with hexact | hlong
  · have htake : (line codec entry).take n = codec.encode entry := by
      rw [← hexact, line, List.take_left]
    have hsize := hnext.size
    rw [content_concat, line, List.length_append, List.length_append] at hsize
    apply good_reload_left h.loadable (.whole entry hnext)
    · rw [List.length_append]
      omega
    · rw [Option.getD_some, h.file_eq, htake]
  · have htake : (line codec entry).take n = line codec entry := by
      apply List.take_of_length_le
      rw [line, List.length_append, List.length_singleton]
      omega
    apply hnext.good_reload
    rw [Option.getD_some, h.file_eq, htake, content_concat]

/-- Pruning cuts the file at the remembered offset, or changes nothing. -/
theorem prune_cases (j : Journal) (file : Option (List UInt8)) (detail : Text.Str) :
    (∃ newLen bytes, j.entries ≠ [] ∧ j.lastLineStart = some newLen ∧ file = some bytes ∧
      pruneTrailingHostError j file detail = (.ok true, ⟨j.entries.dropLast, newLen, none⟩,
        some (bytes.take newLen ++ List.replicate (newLen - bytes.length) 0))) ∨
    (pruneTrailingHostError j file detail = (.ok false, j, file) ∨
      pruneTrailingHostError j file detail = (.error .io, j, file)) := by
  cases hlast : j.entries.getLast? with
  | none => simp [pruneTrailingHostError, hlast]
  | some last =>
    have hne : j.entries ≠ [] := by
      intro hnil
      simp [hnil] at hlast
    by_cases hprunable : prunable last detail
    · cases hstart : j.lastLineStart with
      | none => simp [pruneTrailingHostError, hlast, hprunable, hstart]
      | some newLen =>
        cases file with
        | none => simp [pruneTrailingHostError, hlast, hprunable, hstart]
        | some bytes =>
          left
          exact ⟨newLen, bytes, hne, rfl, rfl, by
            simp [pruneTrailingHostError, hlast, hprunable, hstart]⟩
    · simp [pruneTrailingHostError, hlast, hprunable]

theorem Faithful.pruned {newLen : ℕ} {bytes : List UInt8}
    (h : Faithful codec j (some bytes) ledger) (hne : j.entries ≠ [])
    (hstart : j.lastLineStart = some newLen) :
    Faithful codec ⟨j.entries.dropLast, newLen, none⟩
      (some (bytes.take newLen ++ List.replicate (newLen - bytes.length) 0))
      ledger.dropLast := by
  obtain ⟨es, e, hledger⟩ : ∃ es e, ledger = es ++ [e] := by
    rw [h.entries] at hne
    exact ⟨_, _, (List.dropLast_append_getLast hne).symm⟩
  subst hledger
  have hoff := h.lastLineStart_eq newLen hstart
  rw [lastStart_concat, Option.some_inj] at hoff
  have hbytes : bytes = content codec es ++ line codec e := by
    rw [← content_concat]
    exact h.file_eq
  have hzero : newLen - bytes.length = 0 := by
    rw [hbytes, List.length_append]
    omega
  refine ⟨by rw [h.entries], ?_, ?_, ?_, by simp⟩
  · rw [List.dropLast_concat]
    exact h.loadable.of_concat
  · rw [hzero, hbytes, ← hoff]
    simp
  · rw [List.dropLast_concat]
    exact hoff.symm

/-! ## Runs -/

theorem Good.step {s : Store} (h : Good codec s) {op : Op} (hop : s.Sound codec op) :
    Good codec (s.step codec op) := by
  obtain ⟨j, hj, hf⟩ := h
  cases op with
  | record entry append =>
    by_cases hr : Reaches codec j entry
    · have hsound := hop.2 j hj hr
      cases append with
      | done =>
        simp only [Store.step, hj, record_done hr]
        exact ⟨_, rfl, hf.record_done hop.1 hr hsound.1⟩
      | fails n =>
        -- the only failure that is left persists nothing
        cases n with
        | zero =>
          simp only [Store.step, hj, record_fails hr]
          exact ⟨j, rfl, hf⟩
        | succ n => exact absurd rfl (hsound.2 n)
    · obtain ⟨e, he⟩ := record_of_not_reaches hr s.file append
      simp only [Store.step, hj, he]
      exact ⟨j, rfl, hf⟩
  | crash entry n =>
    by_cases hr : Reaches codec j entry
    · have hcount := hop.2 j hj hr
      by_cases hn : (codec.encode entry).length ≤ n
      · simp only [Store.step, hj, hr, hn, and_self, if_true]
        exact hf.crash_whole hop.1 hr hcount hn
      · simp only [Store.step, hj, hn, and_false, if_false]
        exact hf.crash_torn hop.1 hr hcount (by omega)
    · obtain ⟨e, he⟩ := record_of_not_reaches hr s.file (.fails n)
      simp only [Store.step, hj, he, hr, false_and, if_false]
      exact hf.loadable.good_reload hf.file_eq
  | prune detail =>
    rcases prune_cases j s.file detail with ⟨newLen, bytes, hne, hstart, hfile, hp⟩ | hp | hp
    · rw [hfile] at hf
      simp only [Store.step, hj, hp]
      exact ⟨_, rfl, hf.pruned hne hstart⟩
    · simp only [Store.step, hj, hp]
      exact ⟨j, rfl, hf⟩
    · simp only [Store.step, hj, hp]
      exact ⟨j, rfl, hf⟩
  | restart =>
    simp only [Store.step, hj]
    exact hf.loadable.good_reload hf.file_eq

theorem good_start : Good codec .start :=
  ⟨.new, rfl, rfl, ⟨by simp [Store.start], by simp [Dense, Store.start], by simp [Store.start],
    by simp [Store.start]⟩, rfl, rfl, by simp [Journal.new]⟩

/-- After every run whose steps are sound the journal in memory is the ledger, with the
length of the file and the offset of the last line; a record that fails changes nothing in
memory; and loading the file succeeds with the ledger's entries, which are dense. -/
theorem run_survives_faults (codec : Codec) (ops : List Op)
    (h : Meets (Store.step codec) (Store.Sound codec) .start ops) :
    let s := run (Store.step codec) .start ops
    ∃ j, s.journal = .ok j ∧ j.entries = s.ledger ∧ Dense s.ledger ∧
      j.bytes = (s.file.getD []).length ∧
      (∀ off, j.lastLineStart = some off → ∃ es e, s.ledger = es ++ [e] ∧
        (s.file.getD []).drop off = line codec e) ∧
      (∀ entry append e j' file', record codec j s.file entry append = (.error e, j', file') →
        j' = j) ∧
      ∃ loaded file', load codec s.file = .ok (loaded, file') ∧ loaded.entries = s.ledger ∧
        loaded.bytes = (s.file.getD []).length ∧ file'.getD [] = s.file.getD [] := by
  intro s
  obtain ⟨j, hj, hf⟩ : Good codec s :=
    invariant_of_meets (fun _ _ hs ho => hs.step ho) good_start h
  have hbytes : (content codec s.ledger).length = (s.file.getD []).length := by
    rw [hf.file_eq]
  have hload := load_left hf.loadable .nothing (by simpa using hf.loadable.size)
    (by simpa using hf.file_eq)
  refine ⟨j, hj, hf.entries, hf.loadable.dense, hf.bytes_eq.trans hbytes, ?_,
    fun entry append e j' file' he => record_error he, _, _, hload, rfl, hbytes, ?_⟩
  · intro off hoff
    have hstart := hf.lastLineStart_eq off hoff
    have hne : s.ledger ≠ [] := by
      intro hnil
      simp [hnil, lastStart] at hstart
    obtain ⟨es, e, hledger⟩ : ∃ es e, s.ledger = es ++ [e] :=
      ⟨_, _, (List.dropLast_append_getLast hne).symm⟩
    rw [hledger, lastStart_concat, Option.some_inj] at hstart
    refine ⟨es, e, hledger, ?_⟩
    rw [hf.file_eq, hledger, content_concat, ← hstart, List.drop_left]
  · rw [(faithful_load hf.loadable .nothing (by simpa using hf.file_eq)).file_eq, hf.file_eq]

/-! ## Two entries and their JSON -/

def answer (seq : ℕ) : JournalEntry := ⟨seq, "budget".toList, "00".toList, .null, 0⟩

def answerJson (digit : Char) : List UInt8 :=
  ("\x7b\"seq\":".toList ++ digit ::
    ",\"kind\":\"budget\",\"req_hash\":\"00\",\"result\":null,\"at_ms\":0\x7d".toList).map
    fun c => UInt8.ofNat c.toNat

def twoAnswers : Codec where
  encode e := if e.seq = 0 then answerJson '0' else answerJson '1'
  decode bytes :=
    if bytes = answerJson '0' then some (answer 0)
    else if bytes = answerJson '1' then some (answer 1)
    else none

/-- One entry recorded, the next torn by a crash and then persisted without its newline. -/
def crashes : List Op :=
  [.record (answer 0) .done, .crash (answer 1) 5, .crash (answer 1) (answerJson '1').length]

/-- What the codec comes to on the two entries, and what the journal of the two holds. -/
theorem answer_facts :
    (∀ e ∈ [answer 0, answer 1], newline ∉ twoAnswers.encode e ∧
      (twoAnswers.encode e).head? = some 123 ∧ ∀ k < (twoAnswers.encode e).length,
        (twoAnswers.decode ((twoAnswers.encode e).take k)).isNone) ∧
    (Store.step twoAnswers (Store.step twoAnswers .start (.record (answer 0) .done))
      (.crash (answer 1) 5)).journal.toOption.map (·.entries.length) = some 1 ∧
    (run (Store.step twoAnswers) .start crashes).ledger.map (·.seq) = [0, 1] := by
  decide +kernel

theorem lawful_answer {e : JournalEntry} (he : e ∈ [answer 0, answer 1])
    (hread : twoAnswers.decode (twoAnswers.encode e) = some e) : Lawful twoAnswers e := by
  obtain ⟨hnewline, hbrace, htorn⟩ := answer_facts.1 e he
  exact ⟨hread, hnewline, hbrace, fun k hk => Option.isNone_iff_eq_none.1 (htorn k hk)⟩

theorem lawful_answer_zero : Lawful twoAnswers (answer 0) :=
  lawful_answer List.mem_cons_self rfl

theorem lawful_answer_one : Lawful twoAnswers (answer 1) :=
  lawful_answer (List.mem_cons_of_mem _ List.mem_cons_self) rfl

theorem crashes_sound :
    Meets (Store.step twoAnswers) (Store.Sound twoAnswers) .start crashes := by
  refine ⟨⟨lawful_answer_zero, ?_⟩, ⟨lawful_answer_one, ?_⟩, ⟨lawful_answer_one, ?_⟩, trivial⟩
  · intro j hj _
    cases hj
    exact ⟨by decide, by simp⟩
  · intro j hj _
    cases hj
    decide
  · intro j hj _
    obtain ⟨-, hlen, -⟩ := answer_facts
    rw [hj] at hlen
    simp only [Except.toOption, Option.map_some, Option.some_inj] at hlen
    rw [hlen]
    decide

theorem crashed_appends_survive :
    ∃ loaded file', load twoAnswers (run (Store.step twoAnswers) .start crashes).file =
      .ok (loaded, file') ∧ loaded.entries.map (·.seq) = [0, 1] := by
  obtain ⟨-, -, hledger⟩ := answer_facts
  obtain ⟨_, _, _, _, _, _, _, loaded, file', hload, hentries, _⟩ :=
    run_survives_faults twoAnswers crashes crashes_sound
  refine ⟨loaded, file', hload, ?_⟩
  rw [hentries]
  exact hledger

/-- The append fails with one byte on the disk, the retry succeeds, and the file can no longer
be loaded. -/
theorem retry_after_torn_append_unloadable :
    let s := run (Store.step twoAnswers) .start
      [.record (answer 0) (.fails 1), .record (answer 0) .done]
    Lawful twoAnswers (answer 0) ∧ s.ledger = [answer 0] ∧
      (∃ j, s.journal = .ok j ∧ j.bytes ≠ (s.file.getD []).length) ∧
      load twoAnswers s.file = .error (.parse 1) := by
  refine ⟨lawful_answer_zero, rfl, ⟨_, rfl, by decide⟩, rfl⟩

end GrokBuild.Workflow
