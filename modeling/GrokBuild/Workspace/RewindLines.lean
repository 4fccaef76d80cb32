import GrokBuild.Lib.KeepLast
import GrokBuild.Text.PathBuf
import GrokBuild.Text.Segments
import GrokBuild.Text.Utf8Decode
import GrokBuild.Workspace.FileState
import Mathlib.Data.Finset.Dedup

/-!
# The lines of `rewind_points.jsonl`

The file is read line by line, once for the points with their contents and once for what the picker
shows of them. The two readers take one line as different shapes.
-/

namespace GrokBuild.Workspace

open GrokBuild.Text GrokBuild.KeepLast

/-- A JSON value as `serde` walks it. A string whose escapes spell no text has none; a number is
kept when it is an unsigned one. -/
inductive JsonValue
  | null
  | bool (b : Bool)
  | number (unsigned : Option ℕ)
  | string (text : Option Str)
  | array (items : List JsonValue)
  | object (fields : List (Option Str × JsonValue))

section Shapes

namespace JsonValue

def asText : JsonValue → Option Str
  | .string text => text
  | _ => none

def asUsize : JsonValue → Option ℕ
  | .number unsigned => unsigned
  | _ => none

end JsonValue

/-- The keys of an object are read as texts. -/
def textKeys (fields : List (Option Str × JsonValue)) : Option (List (Str × JsonValue)) :=
  fields.mapM fun field => field.1.map fun key => (key, field.2)

/-- A derived field: a second one of the name is an error, a missing one is not. -/
def structField (fields : List (Str × JsonValue)) (name : Str) : Option (Option JsonValue) :=
  match fields.filter fun field => field.1 = name with
  | [] => some none
  | [field] => some (some field.2)
  | _ => none

def requiredField (fields : List (Str × JsonValue)) (name : Str) : Option JsonValue :=
  (structField fields name).join

/-- `Path::components` of a text: empty parts go, and each `.` but one in front. -/
def flexiblePath (text : Str) : PathBuf :=
  let absolute := startsWith text ['/']
  let parts := splitOnChar '/' text
  let here := if !absolute && parts.head? == some ['.'] then [['.']] else []
  { absolute := absolute
    components := here ++ parts.filter fun part => !part.isEmpty && part != ['.'] }

/-- What `chrono` reads as a time, and the order in which a `HashMap` is walked. -/
structure Decoding (T : Type) where
  parseTime : Str → Option T
  walk : List (Str × Option Str) → List (Str × Option Str)
  walk_perm : ∀ entries, (walk entries).Perm entries

variable {T : Type} (d : Decoding T)

namespace Decoding

def asTime (value : JsonValue) : Option T := value.asText.bind d.parseTime

/-- The content of a snapshot whose path and time are as they should be. -/
def snapshotOf (path : JsonValue) (content : Option JsonValue) (capturedAt : JsonValue) :
    Option (Option Str) :=
  path.asText.bind fun _ =>
    (d.asTime capturedAt).bind fun _ =>
      match content with
      | none => some none
      | some .null => some none
      | some value => value.asText.map some

def fileSnapshot : JsonValue → Option (Option Str)
  | .array [path, content, capturedAt] => d.snapshotOf path (some content) capturedAt
  | .object fields =>
    (textKeys fields).bind fun fields =>
      (requiredField fields "path".toList).bind fun path =>
        (structField fields "content".toList).bind fun content =>
          (requiredField fields "captured_at".toList).bind fun capturedAt =>
            d.snapshotOf path content capturedAt
  | _ => none

def snapshotEntries : JsonValue → Option (List (Str × Option Str))
  | .object fields =>
    (textKeys fields).bind fun fields =>
      fields.mapM fun field => (d.fileSnapshot field.2).map fun content => (field.1, content)
  | _ => none

/-- The map by texts, then the map by paths. -/
def collectSnapshots (entries : List (Str × Option Str)) : Snapshots PathBuf Str :=
  (d.walk (keepLast Prod.fst entries)).foldl
    (fun snapshots entry => snapshots.insert (flexiblePath entry.1) entry.2) ∅

def flexiblePathMap (value : JsonValue) : Option (Snapshots PathBuf Str) :=
  (d.snapshotEntries value).map d.collectSnapshots

end Decoding

/-- A rewind point with its time. -/
structure PointEntry (T : Type) where
  point : RewindPoint PathBuf Str
  createdAt : T

structure RewindPointMeta (T : Type) where
  promptIndex : ℕ
  createdAt : T
  numFileSnapshots : ℕ

namespace Decoding

def pointOf (promptIndex createdAt fileSnapshots : JsonValue)
    (afterSnapshots : Option JsonValue) : Option (PointEntry T) :=
  promptIndex.asUsize.bind fun promptIndex =>
    (d.asTime createdAt).bind fun createdAt =>
      (d.flexiblePathMap fileSnapshots).bind fun fileSnapshots =>
        (afterSnapshots.elim (some ∅) d.flexiblePathMap).map fun afterSnapshots =>
          ⟨⟨promptIndex, fileSnapshots, afterSnapshots⟩, createdAt⟩

def rewindPoint : JsonValue → Option (PointEntry T)
  | .array [promptIndex, createdAt, fileSnapshots] =>
    d.pointOf promptIndex createdAt fileSnapshots none
  | .array [promptIndex, createdAt, fileSnapshots, afterSnapshots] =>
    d.pointOf promptIndex createdAt fileSnapshots (some afterSnapshots)
  | .object fields =>
    (textKeys fields).bind fun fields =>
      (requiredField fields "prompt_index".toList).bind fun promptIndex =>
        (requiredField fields "created_at".toList).bind fun createdAt =>
          (requiredField fields "file_snapshots".toList).bind fun fileSnapshots =>
            (structField fields "after_snapshots".toList).bind fun afterSnapshots =>
              d.pointOf promptIndex createdAt fileSnapshots afterSnapshots
  | _ => none

/-- `MapEntryCount`. -/
def mapEntryCount : JsonValue → Option ℕ
  | .object fields => (textKeys fields).map List.length
  | _ => none

def metaOf (promptIndex createdAt fileSnapshots : JsonValue) : Option (RewindPointMeta T) :=
  promptIndex.asUsize.bind fun promptIndex =>
    (d.asTime createdAt).bind fun createdAt =>
      (mapEntryCount fileSnapshots).map fun count => ⟨promptIndex, createdAt, count⟩

def metaRow : JsonValue → Option (RewindPointMeta T)
  | .array [promptIndex, createdAt, fileSnapshots] => d.metaOf promptIndex createdAt fileSnapshots
  | .object fields =>
    (textKeys fields).bind fun fields =>
      (requiredField fields "prompt_index".toList).bind fun promptIndex =>
        (requiredField fields "created_at".toList).bind fun createdAt =>
          (requiredField fields "file_snapshots".toList).bind fun fileSnapshots =>
            d.metaOf promptIndex createdAt fileSnapshots
  | _ => none

end Decoding

end Shapes

section Readers

/-- `read_until(b'\n')`: the line that is read, and what is left of the file. -/
def readLine : Bytes → Bytes × Bytes
  | [] => ([], [])
  | b :: bytes => if b = 0x0a then ([b], bytes) else (b :: (readLine bytes).1, (readLine bytes).2)

theorem readLine_append (bytes : Bytes) : (readLine bytes).1 ++ (readLine bytes).2 = bytes := by
  induction bytes with
  | nil => rfl
  | cons b bytes ih =>
    rw [readLine]
    split
    · rfl
    · rw [List.cons_append, ih]

theorem readLine_rest_lt {bytes : Bytes} (h : (readLine bytes).1 ≠ []) :
    (readLine bytes).2.length < bytes.length := by
  have hlength := congrArg List.length (readLine_append bytes)
  have hpos := List.length_pos_of_ne_nil h
  rw [List.length_append] at hlength
  omega

/-- What one line gives: nothing when it is blank or malformed. -/
def lineRow {R : Type} (fromStr : Str → Option R) (line : Str) : Option R :=
  if trim line = [] then none else fromStr (trim line)

/-- The lenient reader; `none` is an I/O error, and a line that is no UTF-8 is one. -/
def readRewindJsonlLines {R : Type} (fromStr : Str → Option R) (bytes : Bytes) : Option (List R) :=
  if _h : (readLine bytes).1 = [] then some []
  else
    (fromUtf8 (readLine bytes).1).bind fun line =>
      (readRewindJsonlLines fromStr (readLine bytes).2).map fun rows =>
        (lineRow fromStr line).toList ++ rows
termination_by bytes.length
decreasing_by exact readLine_rest_lt _h

variable {T : Type} (parse : Str → Option JsonValue) (d : Decoding T)

def readRewindPointsFile (bytes : Bytes) : Option (List (PointEntry T)) :=
  readRewindJsonlLines (fun line => (parse line).bind d.rewindPoint) bytes

def scanRewindPointMetas (bytes : Bytes) : Option (List (RewindPointMeta T)) :=
  readRewindJsonlLines (fun line => (parse line).bind d.metaRow) bytes

end Readers

/-! ## One line as two shapes -/

section Agreement

variable {T : Type} (d : Decoding T)

def PointEntry.toMeta (stored : PointEntry T) : RewindPointMeta T :=
  ⟨stored.point.promptIndex, stored.createdAt, stored.point.fileSnapshots.keys.length⟩

/-- Each entry is a snapshot, and no two are of one path. -/
def SnapshotsDistinct (value : JsonValue) : Prop :=
  ∃ entries, d.snapshotEntries value = some entries ∧
    (entries.map fun entry => flexiblePath entry.1).Nodup

/-- The snapshots that a point has besides, if any, can be read. -/
def ReadableAfter (afterSnapshots : Option JsonValue) : Prop :=
  ∀ value ∈ afterSnapshots, (d.flexiblePathMap value).isSome = true

/-- A line that the picker shows has nothing but snapshots of distinct paths, and one that it does
not show because it is an array of four is no point either. -/
def Alike : JsonValue → Prop
  | .array [promptIndex, createdAt, fileSnapshots] =>
    (d.metaOf promptIndex createdAt fileSnapshots).isSome = true →
      SnapshotsDistinct d fileSnapshots
  | .array [promptIndex, createdAt, fileSnapshots, afterSnapshots] =>
    d.pointOf promptIndex createdAt fileSnapshots (some afterSnapshots) = none
  | .object fields =>
    (d.metaRow (.object fields)).isSome = true → ∀ keyed, textKeys fields = some keyed →
      (∀ value ∈ requiredField keyed "file_snapshots".toList, SnapshotsDistinct d value) ∧
        ∃ afterSnapshots, structField keyed "after_snapshots".toList = some afterSnapshots ∧
          ReadableAfter d afterSnapshots
  | _ => True

variable {d}

theorem toFinset_keys_foldl (entries : List (Str × Option Str)) (m : Snapshots PathBuf Str) :
    (entries.foldl (fun snapshots entry => snapshots.insert (flexiblePath entry.1) entry.2)
        m).keys.toFinset =
      m.keys.toFinset ∪ (entries.map fun entry => flexiblePath entry.1).toFinset := by
  induction entries generalizing m with
  | nil => simp
  | cons entry entries ih =>
    rw [List.foldl_cons, ih]
    ext path
    simp only [AList.keys_insert, List.map_cons, List.toFinset_cons, Finset.mem_union,
      Finset.mem_insert, List.mem_toFinset]
    by_cases hpath : path = flexiblePath entry.1
    · simp [hpath]
    · simp [hpath, List.mem_erase_of_ne hpath]

theorem length_keys_collectSnapshots (entries : List (Str × Option Str)) :
    (d.collectSnapshots entries).keys.length =
      ((keepLast Prod.fst entries).map fun entry => flexiblePath entry.1).toFinset.card := by
  have hperm := (d.walk_perm (keepLast Prod.fst entries)).map fun entry => flexiblePath entry.1
  rw [← List.toFinset_card_of_nodup (d.collectSnapshots entries).keys_nodup,
    Decoding.collectSnapshots, toFinset_keys_foldl, ← List.toFinset_eq_of_perm _ _ hperm]
  simp

/-- The map has as many files as the object has entries exactly when the paths are distinct. -/
theorem length_keys_eq_iff (entries : List (Str × Option Str)) :
    (d.collectSnapshots entries).keys.length = entries.length ↔
      (entries.map fun entry => flexiblePath entry.1).Nodup := by
  rw [length_keys_collectSnapshots]
  constructor
  · intro hlength
    have hle := List.toFinset_card_le ((keepLast Prod.fst entries).map fun entry =>
      flexiblePath entry.1)
    rw [hlength, List.length_map] at hle
    have hkept := (keepLast_sublist entries).eq_of_length_le hle
    rw [hkept] at hlength
    rw [← Multiset.coe_nodup, ← Multiset.toFinset_card_eq_card_iff_nodup]
    exact hlength.trans (List.length_map _).symm
  · intro hnodup
    have htexts : (entries.map Prod.fst).Nodup := by
      apply List.Nodup.of_map flexiblePath
      rw [List.map_map]
      exact hnodup
    rw [keepLast_eq_self htexts, List.toFinset_card_of_nodup hnodup, List.length_map]

theorem length_of_mapM {α β : Type*} {f : α → Option β} {l : List α} {l' : List β}
    (h : l.mapM f = some l') : l'.length = l.length := by
  induction l generalizing l' with
  | nil =>
    obtain rfl := Option.some.inj h
    rfl
  | cons a l ih =>
    rw [List.mapM_cons] at h
    obtain ⟨b, -, h⟩ := Option.bind_eq_some_iff.1 h
    obtain ⟨bs, hbs, h⟩ := Option.bind_eq_some_iff.1 h
    obtain rfl := Option.some.inj h
    rw [List.length_cons, List.length_cons, ih hbs]

theorem mapEntryCount_of_entries {value : JsonValue} {entries : List (Str × Option Str)}
    (h : d.snapshotEntries value = some entries) :
    Decoding.mapEntryCount value = some entries.length := by
  cases value with
  | object fields =>
    obtain ⟨keyed, hkeyed, hentries⟩ := Option.bind_eq_some_iff.1 h
    rw [Decoding.mapEntryCount, hkeyed, Option.map_some, length_of_mapM hentries]
  | _ => cases h

theorem metaOf_eq_iff (promptIndex createdAt fileSnapshots : JsonValue)
    (afterSnapshots : Option JsonValue) :
    d.metaOf promptIndex createdAt fileSnapshots =
        (d.pointOf promptIndex createdAt fileSnapshots afterSnapshots).map PointEntry.toMeta ↔
      ((d.metaOf promptIndex createdAt fileSnapshots).isSome = true →
        SnapshotsDistinct d fileSnapshots ∧ ReadableAfter d afterSnapshots) := by
  unfold Decoding.metaOf Decoding.pointOf
  cases promptIndex.asUsize with
  | none => simp
  | some index =>
    cases d.asTime createdAt with
    | none => simp
    | some time =>
      simp only [Option.bind_some]
      cases hentries : d.snapshotEntries fileSnapshots with
      | none =>
        have hmap : d.flexiblePathMap fileSnapshots = none := by
          rw [Decoding.flexiblePathMap, hentries, Option.map_none]
        have hnot : ¬SnapshotsDistinct d fileSnapshots := by
          rintro ⟨entries, hsome, -⟩
          rw [hentries] at hsome
          cases hsome
        rw [hmap, Option.bind_none, Option.map_none, Option.map_eq_none_iff, Option.isSome_map]
        cases Decoding.mapEntryCount fileSnapshots with
        | none => simp
        | some count => simp [hnot]
      | some entries =>
        have hmap : d.flexiblePathMap fileSnapshots = some (d.collectSnapshots entries) := by
          rw [Decoding.flexiblePathMap, hentries, Option.map_some]
        have hdistinct : SnapshotsDistinct d fileSnapshots ↔
            (entries.map fun entry => flexiblePath entry.1).Nodup := by
          rw [SnapshotsDistinct, hentries]
          simp
        rw [hmap, Option.bind_some, mapEntryCount_of_entries hentries, Option.map_some,
          Option.isSome_some, hdistinct, ← length_keys_eq_iff (d := d)]
        cases afterSnapshots with
        | none =>
          have hreadable : ReadableAfter d none := fun _ hnone => nomatch hnone
          simp [PointEntry.toMeta, hreadable, eq_comm]
        | some after =>
          have hreadable : ReadableAfter d (some after) ↔ (d.flexiblePathMap after).isSome = true := by
            simp [ReadableAfter]
          rw [hreadable, Option.elim_some]
          cases d.flexiblePathMap after with
          | none => simp
          | some read => simp [PointEntry.toMeta, eq_comm]

/-- The fields of a row and of a point, each of which may be missing. -/
theorem metaRow_object_eq_iff (promptIndex createdAt fileSnapshots : Option JsonValue)
    (afterSnapshots : Option (Option JsonValue)) :
    (promptIndex.bind fun index => createdAt.bind fun time => fileSnapshots.bind fun files =>
        d.metaOf index time files) =
      (promptIndex.bind fun index => createdAt.bind fun time => fileSnapshots.bind fun files =>
        afterSnapshots.bind fun after => d.pointOf index time files after).map PointEntry.toMeta ↔
      ((promptIndex.bind fun index => createdAt.bind fun time => fileSnapshots.bind fun files =>
          d.metaOf index time files).isSome = true →
        (∀ files ∈ fileSnapshots, SnapshotsDistinct d files) ∧
          ∃ after, afterSnapshots = some after ∧ ReadableAfter d after) := by
  cases promptIndex with
  | none => simp
  | some index =>
    cases createdAt with
    | none => simp
    | some time =>
      cases fileSnapshots with
      | none => simp
      | some files =>
        simp only [Option.bind_some]
        cases afterSnapshots with
        | none =>
          rw [Option.bind_none, Option.map_none]
          cases d.metaOf index time files with
          | none => simp
          | some row => simp
        | some after =>
          rw [Option.bind_some, metaOf_eq_iff]
          simp

/-- The picker shows of a line what the loader makes of it exactly when the line is alike. -/
theorem metaRow_eq_iff (value : JsonValue) :
    d.metaRow value = (d.rewindPoint value).map PointEntry.toMeta ↔ Alike d value := by
  unfold Alike
  split
  · rw [Decoding.metaRow, Decoding.rewindPoint, metaOf_eq_iff]
    have hreadable : ReadableAfter d none := fun _ hnone => nomatch hnone
    simp [hreadable]
  · next promptIndex createdAt fileSnapshots afterSnapshots =>
    have hmeta : d.metaRow (.array [promptIndex, createdAt, fileSnapshots, afterSnapshots]) = none :=
      rfl
    rw [hmeta, Decoding.rewindPoint, eq_comm, Option.map_eq_none_iff]
  · next fields =>
    rw [Decoding.metaRow, Decoding.rewindPoint]
    cases textKeys fields with
    | none => exact iff_of_true rfl fun hnone => absurd hnone Bool.false_ne_true
    | some keyed =>
      rw [Option.bind_some, Option.bind_some, metaRow_object_eq_iff]
      constructor
      · intro h hsome _ hkeyed
        rw [← Option.some.inj hkeyed]
        exact h hsome
      · intro h hsome
        exact h hsome keyed rfl
  · next hthree hfour hobject =>
    have hmeta : d.metaRow value = none := by
      unfold Decoding.metaRow
      split
      · exact absurd rfl (hthree _ _ _)
      · exact absurd rfl (hobject _)
      · rfl
    have hpoint : d.rewindPoint value = none := by
      unfold Decoding.rewindPoint
      split
      · exact absurd rfl (hthree _ _ _)
      · exact absurd rfl (hfour _ _ _ _)
      · exact absurd rfl (hobject _)
      · rfl
    rw [hmeta, hpoint]
    exact iff_of_true rfl trivial

end Agreement

/-! ## The two readers -/

section Files

/-- The lines of the file, each with its newline. -/
def fileLines (bytes : Bytes) : List Bytes :=
  if _h : (readLine bytes).1 = [] then []
  else (readLine bytes).1 :: fileLines (readLine bytes).2
termination_by bytes.length
decreasing_by exact readLine_rest_lt _h

/-- What a line gives that need not be UTF-8. -/
def wholeRow {R : Type} (fromStr : Str → Option R) (line : Bytes) : Option R :=
  (fromUtf8 line).bind (lineRow fromStr)

theorem readRewindJsonlLines_isSome_iff {R : Type} (fromStr : Str → Option R) (bytes : Bytes) :
    (readRewindJsonlLines fromStr bytes).isSome = true ↔
      ∀ line ∈ fileLines bytes, (fromUtf8 line).isSome = true := by
  induction bytes using fileLines.induct with
  | case1 bytes h =>
    rw [readRewindJsonlLines, dif_pos h, fileLines, dif_pos h]
    simp
  | case2 bytes h ih =>
    rw [readRewindJsonlLines, dif_neg h, fileLines, dif_neg h, List.forall_mem_cons, ← ih]
    cases fromUtf8 (readLine bytes).1 with
    | none => simp
    | some line => simp

/-- A file of UTF-8 lines gives the rows of its lines. -/
theorem readRewindJsonlLines_eq {R : Type} (fromStr : Str → Option R) {bytes : Bytes}
    (h : ∀ line ∈ fileLines bytes, (fromUtf8 line).isSome = true) :
    readRewindJsonlLines fromStr bytes = some ((fileLines bytes).filterMap (wholeRow fromStr)) := by
  induction bytes using fileLines.induct with
  | case1 bytes hnil =>
    rw [readRewindJsonlLines, dif_pos hnil, fileLines, dif_pos hnil]
    rfl
  | case2 bytes hnil ih =>
    rw [fileLines, dif_neg hnil, List.forall_mem_cons] at h
    obtain ⟨line, hline⟩ := Option.isSome_iff_exists.1 h.1
    rw [readRewindJsonlLines, dif_neg hnil, fileLines, dif_neg hnil, hline, Option.bind_some,
      ih h.2, Option.map_some, List.filterMap_cons, wholeRow, hline, Option.bind_some]
    cases lineRow fromStr line with
    | none => rfl
    | some row => rfl

theorem wholeRow_eq_some {R : Type} {fromStr : Str → Option R} {line : Bytes} {text : Str}
    (h : fromUtf8 line = some text) : wholeRow fromStr line = lineRow fromStr text := by
  rw [wholeRow, h, Option.bind_some]

theorem filterMap_eq_forall {α β : Type*} {f g : α → Option β} {l : List α}
    (halign : ∀ a ∈ l, (f a).isSome = (g a).isSome) (h : l.filterMap f = l.filterMap g) :
    ∀ a ∈ l, f a = g a := by
  induction l with
  | nil => exact List.forall_mem_nil _
  | cons a l ih =>
    rw [List.forall_mem_cons] at halign ⊢
    cases hf : f a with
    | none =>
      have hg : g a = none := by
        rw [← Option.not_isSome_iff_eq_none, ← halign.1, hf]
        exact Bool.false_ne_true
      rw [List.filterMap_cons_none hf, List.filterMap_cons_none hg] at h
      exact ⟨hg.symm, ih halign.2 h⟩
    | some b =>
      obtain ⟨b', hg⟩ := Option.isSome_iff_exists.1 (halign.1.symm.trans (by rw [hf]; rfl))
      rw [List.filterMap_cons_some hf, List.filterMap_cons_some hg, List.cons.injEq] at h
      exact ⟨by rw [hg, h.1], ih halign.2 h.2⟩

variable {T : Type} (parse : Str → Option JsonValue) (d : Decoding T)

/-- The point that a line is, if it is one. -/
def linePoint (line : Bytes) : Option (PointEntry T) :=
  wholeRow (fun text => (parse text).bind d.rewindPoint) line

/-- What the picker shows of a line. -/
def lineMeta (line : Bytes) : Option (RewindPointMeta T) :=
  wholeRow (fun text => (parse text).bind d.metaRow) line

/-- The loader gives the points of the lines that are points, the picker their indexes and sizes,
and it shows a line exactly when the line materializes. -/
structure PickerAgrees (bytes : Bytes) : Prop where
  loaded : readRewindPointsFile parse d bytes =
    some ((fileLines bytes).filterMap (linePoint parse d))
  scanned : scanRewindPointMetas parse d bytes =
    some (((fileLines bytes).filterMap (linePoint parse d)).map PointEntry.toMeta)
  shown : ∀ line ∈ fileLines bytes,
    (lineMeta parse d line).isSome = (linePoint parse d line).isSome

/-- The line is UTF-8, and the value on it is alike. -/
def LineSound (line : Bytes) : Prop :=
  ∃ text, fromUtf8 line = some text ∧
    (trim text ≠ [] → ∀ value ∈ parse (trim text), Alike d value)

theorem lineMeta_eq_iff {line : Bytes} {text : Str} (h : fromUtf8 line = some text) :
    lineMeta parse d line = (linePoint parse d line).map PointEntry.toMeta ↔
      (trim text ≠ [] → ∀ value ∈ parse (trim text), Alike d value) := by
  rw [lineMeta, linePoint, wholeRow_eq_some h, wholeRow_eq_some h, lineRow, lineRow]
  by_cases hblank : trim text = []
  · rw [if_pos hblank, if_pos hblank]
    simp [hblank]
  · rw [if_neg hblank, if_neg hblank]
    cases parse (trim text) with
    | none => simp
    | some value =>
      rw [Option.bind_some, Option.bind_some, metaRow_eq_iff]
      simp [hblank]

/-- The picker and the loader agree on a file exactly when each line is UTF-8 and has either no
point and no row or a point with as many files as its row counts. -/
theorem pickerAgrees_iff (bytes : Bytes) :
    PickerAgrees parse d bytes ↔ ∀ line ∈ fileLines bytes, LineSound parse d line := by
  constructor
  · intro h line hline
    have hutf8 := (readRewindJsonlLines_isSome_iff _ bytes).1 (Option.isSome_of_eq_some h.loaded)
    obtain ⟨text, htext⟩ := Option.isSome_iff_exists.1 (hutf8 line hline)
    have hscanned := h.scanned
    rw [scanRewindPointMetas, readRewindJsonlLines_eq _ hutf8, Option.some.injEq,
      List.map_filterMap] at hscanned
    refine ⟨text, htext, (lineMeta_eq_iff parse d htext).1 ?_⟩
    refine filterMap_eq_forall (fun a ha => ?_) hscanned line hline
    rw [Option.isSome_map]
    exact h.shown a ha
  · intro h
    have hutf8 : ∀ line ∈ fileLines bytes, (fromUtf8 line).isSome = true := by
      intro line hline
      obtain ⟨text, htext, -⟩ := h line hline
      exact Option.isSome_of_eq_some htext
    have heq : ∀ line ∈ fileLines bytes,
        lineMeta parse d line = (linePoint parse d line).map PointEntry.toMeta := by
      intro line hline
      obtain ⟨text, htext, halike⟩ := h line hline
      exact (lineMeta_eq_iff parse d htext).2 halike
    refine ⟨readRewindJsonlLines_eq _ hutf8, ?_, fun line hline => ?_⟩
    · rw [scanRewindPointMetas, readRewindJsonlLines_eq _ hutf8, List.map_filterMap]
      exact congrArg some (List.filterMap_congr heq)
    · rw [heq line hline, Option.isSome_map]

end Files

section TornLine

def pointText : Str :=
  "\x7b\"prompt_index\":0,\"created_at\":\"2026-01-01T00:00:00Z\",\"file_snapshots\":\x7b\x7d\x7d".toList

/-- The reader on the one line. -/
def plainParse (line : Str) : Option JsonValue :=
  if line = pointText then
    some (.object [(some "prompt_index".toList, .number (some 0)),
      (some "created_at".toList, .string (some "2026-01-01T00:00:00Z".toList)),
      (some "file_snapshots".toList, .object [])])
  else none

def plainDecoding : Decoding Unit where
  parseTime text := if text = "2026-01-01T00:00:00Z".toList then some () else none
  walk := id
  walk_perm _ := List.Perm.refl _

/-- A line that was cut behind the first byte of a character, and a whole one. -/
def tornFile : Bytes := [0x7b, 0x22, 0xc3, 0x0a] ++ (encode pointText ++ [0x0a])

theorem linePoint_pointText :
    (linePoint plainParse plainDecoding (encode pointText ++ [0x0a])).isSome = true := by
  have htext : fromUtf8 (encode pointText ++ [0x0a]) = some (pointText ++ ['\n']) := by
    rw [fromUtf8_concat (by decide), fromUtf8_encode]
    rfl
  have htrim : trim (pointText ++ ['\n']) = pointText := by
    rw [trim_append_of_right _ (by decide)]
    decide
  have hne : pointText ≠ [] := by decide
  rw [linePoint, wholeRow_eq_some htext, lineRow, htrim, if_neg hne, plainParse, if_pos rfl]
  decide

theorem readLine_concat {x : Bytes} (h : (0x0a : UInt8) ∉ x) :
    readLine (x ++ [0x0a]) = (x ++ [0x0a], []) := by
  induction x with
  | nil => rfl
  | cons b x ih =>
    rw [List.mem_cons, not_or] at h
    rw [List.cons_append, readLine, if_neg fun hb => h.1 hb.symm, ih h.2]

theorem fileLines_tornFile :
    fileLines tornFile = [[0x7b, 0x22, 0xc3, 0x0a], encode pointText ++ [0x0a]] := by
  have hfirst : readLine tornFile = ([0x7b, 0x22, 0xc3, 0x0a], encode pointText ++ [0x0a]) := rfl
  have hsecond : readLine (encode pointText ++ [0x0a]) = (encode pointText ++ [0x0a], []) :=
    readLine_concat (by decide)
  rw [fileLines, hfirst, dif_neg (List.cons_ne_nil _ _), fileLines, hsecond,
    dif_neg (List.append_ne_nil_of_right_ne_nil _ (List.cons_ne_nil _ _)), fileLines, readLine,
    dif_pos rfl]

/-- The torn line hides the point behind it. -/
theorem torn_line_hides_point :
    (∃ line ∈ fileLines tornFile, (linePoint plainParse plainDecoding line).isSome = true) ∧
      readRewindPointsFile plainParse plainDecoding tornFile = none ∧
      ¬PickerAgrees plainParse plainDecoding tornFile := by
  have hnone : readRewindPointsFile plainParse plainDecoding tornFile = none := by
    rw [← Option.not_isSome_iff_eq_none, readRewindPointsFile, readRewindJsonlLines_isSome_iff,
      fileLines_tornFile]
    intro hutf8
    exact absurd (hutf8 _ List.mem_cons_self) (by decide)
  refine ⟨⟨encode pointText ++ [0x0a], ?_, linePoint_pointText⟩, hnone, ?_⟩
  · rw [fileLines_tornFile]
    exact List.mem_cons_of_mem _ List.mem_cons_self
  · intro h
    have hloaded := h.loaded
    rw [hnone] at hloaded
    cases hloaded

end TornLine

end GrokBuild.Workspace
