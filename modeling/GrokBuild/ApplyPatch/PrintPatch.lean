import Mathlib
import GrokBuild.ApplyPatch.Parser
import GrokBuild.Text.Slices

/-!
# Printing a patch

The documented format as a printer of hunks, and that parsing gives the printed hunks back, inside a
heredoc or not.
-/

namespace GrokBuild.ApplyPatch

open Text

/-! ## The printer -/

/-- The header of a chunk. A bare chunk without context has none. -/
def renderContext (bare : Bool) : Option Str → List Str
  | some context => [changeContextMarker ++ context]
  | none => if bare then [] else [emptyChangeContextMarker]

def renderChunk (bare : Bool) (chunk : UpdateFileChunk) : List Str :=
  renderContext bare chunk.changeContext ++
    (chunk.oldLines.map ('-' :: ·) ++ (chunk.newLines.map ('+' :: ·) ++
      if chunk.isEndOfFile then [eofMarker] else []))

/-- Only the first chunk can be bare. -/
def renderChunks (bare : Bool) : List UpdateFileChunk → List Str
  | [] => []
  | chunk :: chunks => renderChunk bare chunk ++ chunks.flatMap (renderChunk false)

def renderHunk (bare : Bool) : ParsedHunk → List Str
  | .addFile path contents => (addFileMarker ++ path) :: (lines contents).map ('+' :: ·)
  | .deleteFile path => [deleteFileMarker ++ path]
  | .updateFile path movePath chunks =>
    (updateFileMarker ++ path) ::
      ((movePath.map (moveToMarker ++ ·)).toList ++ renderChunks bare chunks)

/-- The lines of a patch. -/
def renderPatch (bare : Bool) (hunks : List ParsedHunk) : List Str :=
  beginPatchMarker :: (hunks.flatMap (renderHunk bare) ++ [endPatchMarker])

def wrapHeredoc (patch : List Str) : List Str := "<<'EOF'".toList :: (patch ++ ["EOF".toList])

/-! ## What can be printed -/

/-- A text that is one line of a file. -/
def IsLine (s : Str) : Prop := '\n' ∉ s ∧ s.getLast? ≠ some '\r'

instance : DecidablePred IsLine := fun _ => inferInstanceAs (Decidable (_ ∧ _))

structure IsPath (path : Str) : Prop where
  nonempty : path ≠ []
  trimmed : trim path = path
  oneLine : '\n' ∉ path

structure PrintableChunk (chunk : UpdateFileChunk) : Prop where
  hasLine : chunk.oldLines ≠ [] ∨ chunk.newLines ≠ []
  context : ∀ context ∈ chunk.changeContext, IsLine context
  oldLines : ∀ line ∈ chunk.oldLines, IsLine line
  newLines : ∀ line ∈ chunk.newLines, IsLine line

def PrintableHunk : ParsedHunk → Prop
  | .addFile path contents => IsPath path ∧ ∃ ls, (∀ line ∈ ls, IsLine line) ∧ contents = unlines ls
  | .deleteFile path => IsPath path
  | .updateFile path movePath chunks =>
    IsPath path ∧ (∀ dest ∈ movePath, IsPath dest) ∧ chunks ≠ [] ∧
      ∀ chunk ∈ chunks, PrintableChunk chunk

/-! ## One chunk -/

section Chunk

variable {chunk : UpdateFileChunk} {rest : List Str}

/-- The lines that end a chunk: none, or one that no chunk line can be. -/
def EndsChunk (rest : List Str) : Prop :=
  ∀ line ∈ rest.head?, line ≠ eofMarker ∧ ∃ c s, line = c :: s ∧ c ∉ [' ', '+', '-']

theorem parseChunkLines_removed (lineNumber : ℕ) (context : Option Str) (before new : List Str)
    (n : ℕ) (old rest : List Str) :
    parseChunkLines lineNumber ⟨context, before, new, false⟩ n (old.map ('-' :: ·) ++ rest) =
      parseChunkLines lineNumber ⟨context, before ++ old, new, false⟩ (n + old.length) rest := by
  induction old generalizing before n with
  | nil => simp
  | cons s old ih =>
    have hline : '-' :: s ≠ eofMarker := nofun
    rw [List.map_cons, List.cons_append, parseChunkLines.eq_def]
    dsimp only
    rw [if_neg hline]
    refine (ih (before ++ [s]) (n + 1)).trans ?_
    rw [List.append_assoc, List.singleton_append, Nat.add_right_comm, List.length_cons]
    rfl

theorem parseChunkLines_added (lineNumber : ℕ) (context : Option Str) (old before : List Str)
    (n : ℕ) (new rest : List Str) :
    parseChunkLines lineNumber ⟨context, old, before, false⟩ n (new.map ('+' :: ·) ++ rest) =
      parseChunkLines lineNumber ⟨context, old, before ++ new, false⟩ (n + new.length) rest := by
  induction new generalizing before n with
  | nil => simp
  | cons s new ih =>
    have hline : '+' :: s ≠ eofMarker := nofun
    rw [List.map_cons, List.cons_append, parseChunkLines.eq_def]
    dsimp only
    rw [if_neg hline]
    refine (ih (before ++ [s]) (n + 1)).trans ?_
    rw [List.append_assoc, List.singleton_append, Nat.add_right_comm, List.length_cons]
    rfl

theorem parseChunkLines_end (lineNumber : ℕ) {n : ℕ} (hn : n ≠ 0) (h : EndsChunk rest) :
    parseChunkLines lineNumber chunk n rest = .ok (chunk, n) := by
  cases rest with
  | nil => rfl
  | cons line rest =>
    obtain ⟨hline, c, s, rfl, hc⟩ := h line rfl
    simp only [List.mem_cons, List.not_mem_nil, or_false, not_or] at hc
    obtain ⟨hspace, hplus, hminus⟩ := hc
    rw [parseChunkLines.eq_def]
    dsimp only
    rw [if_neg hline]
    split
    · rename_i h'
      cases h'
    · rename_i h'
      cases h'
      exact absurd rfl hspace
    · rename_i h'
      cases h'
      exact absurd rfl hplus
    · rename_i h'
      cases h'
      exact absurd rfl hminus
    · rw [if_neg hn]

theorem parseChunkLines_eof (lineNumber : ℕ) {n : ℕ} (hn : n ≠ 0) (rest : List Str) :
    parseChunkLines lineNumber chunk n (eofMarker :: rest) =
      .ok ({ chunk with isEndOfFile := true }, n + 1) := by
  rw [parseChunkLines.eq_def]
  dsimp only
  rw [if_pos rfl, if_neg hn]

/-- The lines of a chunk after its header. -/
def chunkBody (chunk : UpdateFileChunk) : List Str :=
  chunk.oldLines.map ('-' :: ·) ++ (chunk.newLines.map ('+' :: ·) ++
    if chunk.isEndOfFile then [eofMarker] else [])

theorem parseChunkLines_body (lineNumber : ℕ) (hlines : chunk.oldLines ≠ [] ∨ chunk.newLines ≠ [])
    (h : EndsChunk rest) :
    parseChunkLines lineNumber ⟨chunk.changeContext, [], [], false⟩ 0 (chunkBody chunk ++ rest) =
      .ok (chunk, (chunkBody chunk).length) := by
  obtain ⟨context, old, new, eof⟩ := chunk
  dsimp only at hlines
  have hn : 0 + old.length + new.length ≠ 0 := by
    have hpos : 0 < old.length ∨ 0 < new.length :=
      hlines.imp List.length_pos_iff.mpr List.length_pos_iff.mpr
    omega
  unfold chunkBody
  rw [List.append_assoc, List.append_assoc, parseChunkLines_removed, parseChunkLines_added,
    List.nil_append, List.nil_append]
  cases eof with
  | true =>
    dsimp only
    rw [if_pos rfl, List.singleton_append, parseChunkLines_eof lineNumber hn]
    simp [Nat.add_assoc]
  | false =>
    dsimp only
    rw [if_neg Bool.false_ne_true, List.nil_append, parseChunkLines_end lineNumber hn h]
    simp

theorem parseChunkContext_some (context : Str) (lineNumber : ℕ) (first : Bool) :
    parseChunkContext (changeContextMarker ++ context) lineNumber first =
      .ok (some context, 1) := by
  have hne : changeContextMarker ++ context ≠ emptyChangeContextMarker := nofun
  rw [parseChunkContext, if_neg hne, stripPrefix_append]

/-- A line that is no context line. -/
theorem parseChunkContext_missing {c : Char} (hc : c ≠ '@') (s : Str) (lineNumber : ℕ) :
    parseChunkContext (c :: s) lineNumber true = .ok (none, 0) := by
  have hne : c :: s ≠ emptyChangeContextMarker := by
    intro h
    exact hc (List.cons.inj h).1
  have hstrip : stripPrefix (c :: s) changeContextMarker = none := by
    have hstart : startsWith (c :: s) changeContextMarker = false := by
      rw [← Bool.not_eq_true, startsWith, List.isPrefixOf_iff_prefix]
      intro h
      exact hc (List.cons_prefix_cons.mp h).1.symm
    rw [stripPrefix, hstart, if_neg Bool.false_ne_true]
  rw [parseChunkContext, if_neg hne, hstrip, if_pos rfl]

theorem parseUpdateFileChunk_of_context {line : Str} {lines : List Str} {lineNumber n : ℕ}
    {first : Bool} {context : Option Str}
    (hcontext : parseChunkContext line lineNumber first = .ok (context, n))
    (hn : n < (line :: lines).length) :
    parseUpdateFileChunk (line :: lines) lineNumber first =
      (parseChunkLines lineNumber { changeContext := context, oldLines := [], newLines := [] } 0
        ((line :: lines).drop n)).map fun result => (result.1, result.2 + n) := by
  unfold parseUpdateFileChunk
  dsimp only
  rw [hcontext]
  simp only [bind, Except.bind]
  rw [if_neg (by omega)]
  cases parseChunkLines lineNumber { changeContext := context, oldLines := [], newLines := [] } 0
      ((line :: lines).drop n) with
  | error e => rfl
  | ok result => rfl

/-- A bare chunk starts with a removed or an added line. -/
theorem chunkBody_head (hlines : chunk.oldLines ≠ [] ∨ chunk.newLines ≠ []) :
    ∃ c s more, (c = '-' ∨ c = '+') ∧ chunkBody chunk = (c :: s) :: more := by
  unfold chunkBody
  cases hold : chunk.oldLines with
  | cons s old => exact ⟨'-', s, _, .inl rfl, rfl⟩
  | nil =>
    cases hnew : chunk.newLines with
    | cons s new => exact ⟨'+', s, _, .inr rfl, rfl⟩
    | nil => exact absurd hnew (hlines.resolve_left fun h => h hold)

/-- A printed chunk is parsed, and exactly its lines are consumed. -/
theorem parseUpdateFileChunk_render {bare first : Bool} (hbare : bare = true → first = true)
    (hlines : chunk.oldLines ≠ [] ∨ chunk.newLines ≠ []) (hrest : EndsChunk rest)
    (lineNumber : ℕ) :
    parseUpdateFileChunk (renderChunk bare chunk ++ rest) lineNumber first =
      .ok (chunk, (renderChunk bare chunk).length) := by
  have hbody := parseChunkLines_body lineNumber hlines hrest
  have hrender : renderChunk bare chunk = renderContext bare chunk.changeContext ++
    chunkBody chunk := rfl
  obtain ⟨c, s, more, hc, hhead⟩ := chunkBody_head hlines
  rw [hrender, List.append_assoc]
  cases hcontext : chunk.changeContext with
  | some context =>
    rw [hcontext] at hbody
    rw [renderContext, List.singleton_append,
      parseUpdateFileChunk_of_context (parseChunkContext_some context lineNumber first)
        (by rw [hhead]; simp), List.drop_one, List.tail_cons, hbody]
    rfl
  | none =>
    rw [hcontext] at hbody
    cases bare with
    | true =>
      obtain rfl := hbare rfl
      have hne : c ≠ '@' := by
        rintro rfl
        obtain h | h := hc
        · cases h
        · cases h
      rw [hhead, List.cons_append] at hbody
      rw [renderContext, if_pos rfl, List.nil_append, List.nil_append, hhead, List.cons_append,
        parseUpdateFileChunk_of_context (parseChunkContext_missing hne s lineNumber)
          (by simp), List.drop_zero, hbody]
      rfl
    | false =>
      have hempty : parseChunkContext emptyChangeContextMarker lineNumber first = .ok (none, 1) := by
        rw [parseChunkContext, if_pos rfl]
      rw [renderContext, if_neg Bool.false_ne_true, List.singleton_append,
        parseUpdateFileChunk_of_context hempty (by rw [hhead]; simp), List.drop_one,
        List.tail_cons, hbody]
      rfl

end Chunk

/-! ## One hunk -/

section Hunk

variable {bare : Bool} {chunk : UpdateFileChunk} {chunks : List UpdateFileChunk} {rest : List Str}

/-- The lines after a hunk: none, or the header of the next one. -/
def StartsHunk (rest : List Str) : Prop :=
  ∀ line ∈ rest.head?, startsWith line "***".toList = true ∧ line ≠ eofMarker

theorem StartsHunk.cons_star {line : Str} (h : StartsHunk (line :: rest)) :
    ∃ s, line = '*' :: s ∧ line ≠ eofMarker := by
  obtain ⟨hstart, hne⟩ := h line rfl
  rw [startsWith, List.isPrefixOf_iff_prefix] at hstart
  obtain ⟨s, rfl⟩ := hstart
  exact ⟨_, rfl, hne⟩

theorem StartsHunk.endsChunk (h : StartsHunk rest) : EndsChunk rest := by
  cases rest with
  | nil => exact nofun
  | cons line rest =>
    rintro _ ⟨⟩
    obtain ⟨s, rfl, hne⟩ := h.cons_star
    exact ⟨hne, '*', s, rfl, by decide⟩

theorem trim_cons_isEmpty {c : Char} (hc : isWhitespace c = false) (s : Str) :
    (trim (c :: s)).isEmpty = false := by
  rw [List.isEmpty_eq_false_iff]
  intro hnil
  rw [trim_eq_nil_iff] at hnil
  rw [hnil c (List.mem_cons_self ..)] at hc
  cases hc

theorem renderChunk_head (hlines : chunk.oldLines ≠ [] ∨ chunk.newLines ≠ []) :
    ∃ c s more, renderChunk bare chunk = (c :: s) :: more ∧ c ∈ ['@', '-', '+'] ∧
      (bare = false → c = '@') := by
  have hrender : renderChunk bare chunk = renderContext bare chunk.changeContext ++
    chunkBody chunk := rfl
  rw [hrender]
  cases chunk.changeContext with
  | some context => exact ⟨'@', _, _, rfl, by decide, fun _ => rfl⟩
  | none =>
    cases bare with
    | false => exact ⟨'@', _, _, rfl, by decide, fun _ => rfl⟩
    | true =>
      obtain ⟨c, s, more, hc, hhead⟩ := chunkBody_head hlines
      refine ⟨c, s, more, hhead, ?_, nofun⟩
      obtain rfl | rfl := hc
      · decide
      · decide

/-- The chunk loop on a printed chunk. -/
theorem parseChunks_renderChunk {acc : List UpdateFileChunk}
    (hbare : bare = true → acc.isEmpty = true)
    (hlines : chunk.oldLines ≠ [] ∨ chunk.newLines ≠ []) (hrest : EndsChunk rest)
    (lineNumber n : ℕ) :
    parseChunks lineNumber (renderChunk bare chunk ++ rest) n acc =
      parseChunks lineNumber rest (n + (renderChunk bare chunk).length) (acc ++ [chunk]) := by
  have hparse := parseUpdateFileChunk_render hbare hlines hrest (lineNumber + n)
  obtain ⟨c, s, more, hhead, hc, -⟩ := renderChunk_head hlines
  have hblank : isWhitespace c = false ∧ c ≠ '*' := by
    simp only [List.mem_cons, List.not_mem_nil, or_false] at hc
    obtain rfl | rfl | rfl := hc
    · decide
    · decide
    · decide
  have hstart : startsWith (c :: s) "***".toList = false := by
    rw [← Bool.not_eq_true, startsWith, List.isPrefixOf_iff_prefix]
    intro h
    exact hblank.2 (List.cons_prefix_cons.mp h).1.symm
  have hdrop : (renderChunk bare chunk ++ rest).drop (renderChunk bare chunk).length = rest :=
    List.drop_left
  rw [hhead, List.cons_append] at hparse hdrop
  rw [hhead, List.cons_append, parseChunks, trim_cons_isEmpty hblank.1, if_neg Bool.false_ne_true,
    hstart, if_neg Bool.false_ne_true]
  split
  · rename_i herror
    rw [hparse] at herror
    cases herror
  · rename_i hok
    rw [hparse] at hok
    cases hok
    rw [hdrop]

theorem endsChunk_chunks (hlines : ∀ chunk ∈ chunks, chunk.oldLines ≠ [] ∨ chunk.newLines ≠ [])
    (hrest : StartsHunk rest) : EndsChunk (chunks.flatMap (renderChunk false) ++ rest) := by
  cases chunks with
  | nil => exact hrest.endsChunk
  | cons chunk chunks =>
    obtain ⟨c, s, more, hhead, -, hc⟩ :=
      renderChunk_head (hlines chunk (List.mem_cons_self ..))
    obtain rfl := hc rfl
    rw [List.flatMap_cons, hhead]
    rintro _ ⟨⟩
    exact ⟨nofun, '@', s, rfl, by decide⟩

theorem parseChunks_tail (hlines : ∀ chunk ∈ chunks, chunk.oldLines ≠ [] ∨ chunk.newLines ≠ [])
    (hrest : StartsHunk rest) (lineNumber n : ℕ) (acc : List UpdateFileChunk) :
    parseChunks lineNumber (chunks.flatMap (renderChunk false) ++ rest) n acc =
      .ok (acc ++ chunks, n + (chunks.flatMap (renderChunk false)).length) := by
  induction chunks generalizing n acc with
  | nil =>
    cases rest with
    | nil =>
      rw [List.flatMap_nil, List.append_nil, parseChunks, List.append_nil]
      rfl
    | cons line rest =>
      obtain ⟨s, rfl, -⟩ := hrest.cons_star
      rw [List.flatMap_nil, List.nil_append, parseChunks, trim_cons_isEmpty (by decide),
        if_neg Bool.false_ne_true, (hrest _ rfl).1, if_pos rfl, List.append_nil]
      rfl
  | cons chunk chunks ih =>
    rw [List.forall_mem_cons] at hlines
    have hbare : false = true → acc.isEmpty = true :=
      fun h => absurd h Bool.false_ne_true
    rw [List.flatMap_cons, List.append_assoc,
      parseChunks_renderChunk hbare hlines.1 (endsChunk_chunks hlines.2 hrest), ih hlines.2,
      List.append_assoc, List.singleton_append, List.length_append, Nat.add_assoc]

theorem parseChunks_render (hlines : ∀ chunk ∈ chunks, chunk.oldLines ≠ [] ∨ chunk.newLines ≠ [])
    (hrest : StartsHunk rest) (lineNumber n : ℕ) :
    parseChunks lineNumber (renderChunks bare chunks ++ rest) n [] =
      .ok (chunks, n + (renderChunks bare chunks).length) := by
  cases chunks with
  | nil => exact @parseChunks_tail [] rest (List.forall_mem_nil _) hrest lineNumber n []
  | cons chunk chunks =>
    rw [List.forall_mem_cons] at hlines
    rw [renderChunks, List.append_assoc,
      parseChunks_renderChunk (fun _ => rfl) hlines.1 (endsChunk_chunks hlines.2 hrest),
      parseChunks_tail hlines.2 hrest, List.length_append, Nat.add_assoc, List.nil_append,
      List.singleton_append]

theorem parseAddLines_render (contents : Str) (n : ℕ) (ls : List Str) (hrest : StartsHunk rest) :
    parseAddLines contents n (ls.map ('+' :: ·) ++ rest) =
      (contents ++ unlines ls, n + ls.length) := by
  induction ls generalizing contents n with
  | nil =>
    rw [List.map_nil, List.nil_append, unlines_nil, List.append_nil]
    cases rest with
    | nil => rfl
    | cons line rest =>
      obtain ⟨s, rfl, -⟩ := hrest.cons_star
      rfl
  | cons l ls ih =>
    have hplus : stripPrefix ('+' :: l) ['+'] = some l := stripPrefix_append ['+'] l
    rw [List.map_cons, List.cons_append, parseAddLines, hplus]
    dsimp only
    rw [ih, unlines_cons, List.length_cons, List.append_assoc, List.append_assoc,
      List.singleton_append, Nat.add_right_comm]
    rfl

/-- A header is not changed by the trimming. -/
theorem trim_header {path : Str} (hpath : IsPath path) {c : Char} (hc : isWhitespace c = false)
    (marker : Str) : trim (c :: marker ++ path) = c :: marker ++ path := by
  apply trim_eq_self
  · rintro _ ⟨⟩
    exact hc
  · intro d hd
    rw [List.getLast?_append_of_ne_nil _ hpath.nonempty] at hd
    exact last_of_trim_eq_self hpath.trimmed d hd

theorem lines_unlines {ls : List Str} (h : ∀ line ∈ ls, IsLine line) : lines (unlines ls) = ls := by
  have hlines := lines_unlines_append (fun l hl => (h l hl).1) []
  rw [List.append_nil, lines_nil, List.append_nil] at hlines
  rw [hlines]
  exact (List.map_congr_left fun l hl => chompCr_of_ne (h l hl).2).trans (List.map_id ls)

theorem parseUpdate_render {path : Str} {movePath : Option Str} (hchunks : chunks ≠ [])
    (hlines : ∀ chunk ∈ chunks, chunk.oldLines ≠ [] ∨ chunk.newLines ≠ [])
    (hrest : StartsHunk rest) (lineNumber : ℕ) :
    parseUpdate path ((movePath.map (moveToMarker ++ ·)).toList ++ renderChunks bare chunks ++ rest)
        lineNumber =
      .ok (.updateFile path movePath chunks,
        (renderHunk bare (.updateFile path movePath chunks)).length) := by
  have hnonempty : chunks.isEmpty = false := by
    rw [List.isEmpty_eq_false_iff]
    exact hchunks
  have hparse (n : ℕ) := @parseChunks_render bare _ _ hlines hrest lineNumber n
  unfold parseUpdate
  cases movePath with
  | some dest =>
    have hmove : stripPrefix (moveToMarker ++ dest) moveToMarker = some dest :=
      stripPrefix_append moveToMarker dest
    simp only [Option.map_some, Option.toList_some, List.cons_append, List.nil_append,
      List.head?_cons, Option.bind_some, hmove, Option.isSome_some, if_true, List.drop_one,
      List.tail_cons, hparse, bind, Except.bind, hnonempty, Bool.false_eq_true, if_false]
    congr 2
    simp [renderHunk]
    omega
  | none =>
    have hmove : ((renderChunks bare chunks ++ rest).head?.bind fun line =>
        stripPrefix line moveToMarker) = none := by
      obtain ⟨chunk, more, rfl⟩ := List.exists_cons_of_ne_nil hchunks
      obtain ⟨c, s, tail, hhead, hc, -⟩ :=
        renderChunk_head (hlines chunk (List.mem_cons_self ..))
      rw [renderChunks, hhead]
      simp only [List.mem_cons, List.not_mem_nil, or_false] at hc
      obtain rfl | rfl | rfl := hc
      · rfl
      · rfl
      · rfl
    simp only [Option.map_none, Option.toList_none, List.nil_append, hmove, Option.isSome_none,
      Bool.false_eq_true, if_false, hparse, bind, Except.bind, hnonempty]
    congr 2
    simp [renderHunk]
    omega

/-- What the loop over the hunks needs of a printed hunk: its first line is a header, and parsing
from there consumes exactly the printed lines. -/
theorem parseOneHunk_render {hunk : ParsedHunk} (h : PrintableHunk hunk) :
    ∃ s body, renderHunk bare hunk = ("***".toList ++ s) :: body ∧
      "***".toList ++ s ≠ eofMarker ∧ ∀ rest lineNumber, StartsHunk rest →
        parseOneHunk ("***".toList ++ s) (body ++ rest) lineNumber =
          .ok (hunk, (renderHunk bare hunk).length) := by
  cases hunk with
  | addFile path contents =>
    obtain ⟨hpath, ls, hls, rfl⟩ := h
    refine ⟨" Add File: ".toList ++ path, (lines (unlines ls)).map ('+' :: ·), rfl, nofun, ?_⟩
    intro rest lineNumber hrest
    have htrim : trim (addFileMarker ++ path) = addFileMarker ++ path :=
      trim_header hpath (by decide) _
    show parseOneHunk (addFileMarker ++ path) _ _ = _
    rw [parseOneHunk, htrim, stripPrefix_append]
    dsimp only
    rw [parseAddLines_render [] 1 _ hrest, lines_unlines hls, List.nil_append, renderHunk,
      lines_unlines hls, List.length_cons, List.length_map, Nat.add_comm 1]
  | deleteFile path =>
    refine ⟨" Delete File: ".toList ++ path, [], rfl, nofun, ?_⟩
    intro rest lineNumber _
    have htrim : trim (deleteFileMarker ++ path) = deleteFileMarker ++ path :=
      trim_header h (by decide) _
    have hadd : stripPrefix (deleteFileMarker ++ path) addFileMarker = none := rfl
    show parseOneHunk (deleteFileMarker ++ path) _ _ = _
    rw [parseOneHunk, htrim, hadd]
    dsimp only
    rw [stripPrefix_append]
    rfl
  | updateFile path movePath chunks =>
    obtain ⟨hpath, -, hchunks, hprintable⟩ := h
    refine ⟨" Update File: ".toList ++ path, _, rfl, nofun, ?_⟩
    intro rest lineNumber hrest
    have htrim : trim (updateFileMarker ++ path) = updateFileMarker ++ path :=
      trim_header hpath (by decide) _
    have hadd : stripPrefix (updateFileMarker ++ path) addFileMarker = none := rfl
    have hdelete : stripPrefix (updateFileMarker ++ path) deleteFileMarker = none := rfl
    show parseOneHunk (updateFileMarker ++ path) _ _ = _
    rw [parseOneHunk, htrim, hadd]
    dsimp only
    rw [hdelete]
    dsimp only
    rw [stripPrefix_append]
    exact parseUpdate_render hchunks (fun chunk hmem => (hprintable chunk hmem).hasLine) hrest
      lineNumber

theorem startsHunk_render {hunks : List ParsedHunk} (h : ∀ hunk ∈ hunks, PrintableHunk hunk) :
    StartsHunk (hunks.flatMap (renderHunk bare)) := by
  cases hunks with
  | nil => exact nofun
  | cons hunk hunks =>
    obtain ⟨s, body, hhead, hne, -⟩ :=
      parseOneHunk_render (h hunk (List.mem_cons_self ..))
    rw [List.flatMap_cons, hhead]
    rintro _ ⟨⟩
    refine ⟨?_, hne⟩
    rw [startsWith, List.isPrefixOf_iff_prefix]
    exact List.prefix_append _ _

/-- The hunk loop gives the printed hunks back. -/
theorem parseHunks_render {hunks : List ParsedHunk} (h : ∀ hunk ∈ hunks, PrintableHunk hunk)
    (lineNumber : ℕ) :
    parseHunks (hunks.flatMap (renderHunk bare)) lineNumber = .ok hunks := by
  induction hunks generalizing lineNumber with
  | nil => rw [List.flatMap_nil, parseHunks]
  | cons hunk hunks ih =>
    rw [List.forall_mem_cons] at h
    obtain ⟨s, body, hhead, -, hparse⟩ := parseOneHunk_render h.1
    have hone := hparse (hunks.flatMap (renderHunk bare)) lineNumber (startsHunk_render h.2)
    have hdrop : (renderHunk bare hunk ++ hunks.flatMap (renderHunk bare)).drop
        (renderHunk bare hunk).length = hunks.flatMap (renderHunk bare) :=
      List.drop_left
    rw [hhead, List.cons_append] at hdrop
    rw [hhead] at hone
    rw [List.flatMap_cons, hhead, List.cons_append, parseHunks]
    split
    · rename_i herror
      rw [hone] at herror
      cases herror
    · rename_i hok
      rw [hone] at hok
      cases hok
      rw [hdrop, ih h.2]
      rfl

end Hunk

/-! ## The text -/

section Text

variable {bare : Bool} {hunks : List ParsedHunk}

theorem IsLine.prepend {s : Str} (h : IsLine s) {p : Str} (hp : IsLine p) : IsLine (p ++ s) := by
  refine ⟨fun hmem => ?_, ?_⟩
  · obtain hmem | hmem := List.mem_append.mp hmem
    · exact hp.1 hmem
    · exact h.1 hmem
  · by_cases hs : s = []
    · rw [hs, List.append_nil]
      exact hp.2
    · rw [List.getLast?_append_of_ne_nil _ hs]
      exact h.2

theorem IsPath.isLine {path : Str} (h : IsPath path) : IsLine path := by
  refine ⟨h.oneLine, fun hlast => ?_⟩
  have hfalse := last_of_trim_eq_self h.trimmed '\r' hlast
  exact absurd hfalse (by decide)

theorem isLine_renderChunk {chunk : UpdateFileChunk} (h : PrintableChunk chunk) :
    ∀ line ∈ renderChunk bare chunk, IsLine line := by
  intro line hline
  unfold renderChunk at hline
  rw [List.mem_append, List.mem_append, List.mem_append] at hline
  obtain hline | hline | hline | hline := hline
  · cases hcontext : chunk.changeContext with
    | some context =>
      rw [hcontext, renderContext, List.mem_singleton] at hline
      rw [hline]
      exact (h.context context hcontext).prepend (p := changeContextMarker) (by decide)
    | none =>
      rw [hcontext] at hline
      unfold renderContext at hline
      dsimp only at hline
      split at hline
      · cases hline
      · rw [List.mem_singleton.mp hline]
        decide
  · obtain ⟨s, hs, rfl⟩ := List.mem_map.mp hline
    exact (h.oldLines s hs).prepend (p := ['-']) (by decide)
  · obtain ⟨s, hs, rfl⟩ := List.mem_map.mp hline
    exact (h.newLines s hs).prepend (p := ['+']) (by decide)
  · split at hline
    · rw [List.mem_singleton.mp hline]
      decide
    · cases hline

theorem isLine_renderChunks {chunks : List UpdateFileChunk}
    (h : ∀ chunk ∈ chunks, PrintableChunk chunk) :
    ∀ line ∈ renderChunks bare chunks, IsLine line := by
  intro line hline
  cases chunks with
  | nil => cases hline
  | cons chunk chunks =>
    rw [List.forall_mem_cons] at h
    rw [renderChunks, List.mem_append, List.mem_flatMap] at hline
    obtain hline | ⟨other, hother, hline⟩ := hline
    · exact isLine_renderChunk h.1 line hline
    · exact isLine_renderChunk (h.2 other hother) line hline

theorem isLine_renderHunk {hunk : ParsedHunk} (h : PrintableHunk hunk) :
    ∀ line ∈ renderHunk bare hunk, IsLine line := by
  intro line hline
  cases hunk with
  | addFile path contents =>
    obtain ⟨hpath, ls, hls, rfl⟩ := h
    rw [renderHunk, lines_unlines hls, List.mem_cons] at hline
    obtain rfl | hline := hline
    · exact hpath.isLine.prepend (p := addFileMarker) (by decide)
    · obtain ⟨s, hs, rfl⟩ := List.mem_map.mp hline
      exact (hls s hs).prepend (p := ['+']) (by decide)
  | deleteFile path =>
    rw [renderHunk, List.mem_singleton] at hline
    rw [hline]
    exact (IsPath.isLine h).prepend (p := deleteFileMarker) (by decide)
  | updateFile path movePath chunks =>
    obtain ⟨hpath, hmove, -, hchunks⟩ := h
    rw [renderHunk, List.mem_cons, List.mem_append] at hline
    obtain rfl | hline | hline := hline
    · exact hpath.isLine.prepend (p := updateFileMarker) (by decide)
    · cases movePath with
      | none => cases hline
      | some dest =>
        rw [List.mem_singleton.mp hline]
        exact (hmove dest rfl).isLine.prepend (p := moveToMarker) (by decide)
    · exact isLine_renderChunks hchunks line hline

theorem isLine_renderPatch (h : ∀ hunk ∈ hunks, PrintableHunk hunk) :
    ∀ line ∈ renderPatch bare hunks, IsLine line := by
  intro line hline
  rw [renderPatch, List.mem_cons, List.mem_append, List.mem_flatMap, List.mem_singleton] at hline
  obtain rfl | ⟨hunk, hhunk, hline⟩ | rfl := hline
  · decide
  · exact isLine_renderHunk (h hunk hhunk) line hline
  · decide

/-- The lines of a text whose first and last lines start and end it visibly. -/
theorem lines_trim_joinLines {c d : Char} {s t : Str} {mid : List Str}
    (hc : isWhitespace c = false) (hd : isWhitespace d = false)
    (hlines : ∀ line ∈ (c :: s) :: mid, IsLine line) (hlast : '\n' ∉ t ++ [d]) (nl : Bool) :
    Text.lines (trim (joinLines ((c :: s) :: (mid ++ [t ++ [d]])) ++ if nl then ['\n'] else [])) =
      (c :: s) :: (mid ++ [t ++ [d]]) := by
  have hend : trim (if nl then ['\n'] else []) = [] := by
    cases nl with
    | true => rfl
    | false => rfl
  have hjoin : joinLines ((c :: s) :: (mid ++ [t ++ [d]])) =
      unlines ((c :: s) :: mid) ++ (t ++ [d]) := by
    rw [← List.cons_append, joinLines_concat]
  have htrim : trim (unlines ((c :: s) :: mid) ++ (t ++ [d])) =
      unlines ((c :: s) :: mid) ++ (t ++ [d]) := by
    apply trim_eq_self
    · rintro _ ⟨⟩
      exact hc
    · intro e he
      rw [← List.append_assoc, List.getLast?_concat] at he
      cases he
      exact hd
  rw [trim_append_of_right _ hend, hjoin, htrim,
    lines_unlines_append fun line hline => (hlines line hline).1,
    lines_last hlast (List.append_ne_nil_of_right_ne_nil _ (List.cons_ne_nil _ _))]
  rw [List.map_congr_left fun line hline => chompCr_of_ne (hlines line hline).2, List.map_id']
  rfl

theorem checkStrict_renderPatch : checkPatchBoundariesStrict (renderPatch bare hunks) = .ok () := by
  have hlast : (renderPatch bare hunks).getLast? = some endPatchMarker := by
    rw [renderPatch, ← List.cons_append, List.getLast?_concat]
  have hbegin : trim beginPatchMarker = beginPatchMarker := by decide
  have hend : trim endPatchMarker = endPatchMarker := by decide
  rw [checkPatchBoundariesStrict, hlast, renderPatch, List.head?_cons, checkStartAndEndLinesStrict,
    Option.map_some, Option.map_some, hbegin, hend]
  exact if_pos ⟨rfl, rfl⟩

theorem parsePatchLines_render (h : ∀ hunk ∈ hunks, PrintableHunk hunk) :
    parsePatchLines (renderPatch bare hunks) =
      .ok ⟨hunks, joinLines (renderPatch bare hunks)⟩ := by
  have hinner : ((renderPatch bare hunks).drop 1).dropLast = hunks.flatMap (renderHunk bare) := by
    rw [renderPatch, List.drop_one, List.tail_cons, List.dropLast_concat]
  rw [parsePatchLines, hinner, parseHunks_render h]
  rfl

theorem isLine_opener : IsLine "<<'EOF'".toList := by decide

/-- The text of a printed patch, with or without a newline at its end. -/
def patchText (lines : List Str) (nl : Bool) : Str := joinLines lines ++ if nl then ['\n'] else []

/-- Parsing a printed patch gives its hunks back, bare or in a heredoc. -/
theorem parsePatch_renderPatch (bare nl : Bool) (hunks : List ParsedHunk)
    (h : ∀ hunk ∈ hunks, PrintableHunk hunk) :
    parsePatch (patchText (renderPatch bare hunks) nl) =
        .ok ⟨hunks, joinLines (renderPatch bare hunks)⟩ ∧
      parsePatch (patchText (wrapHeredoc (renderPatch bare hunks)) nl) =
        .ok ⟨hunks, joinLines (renderPatch bare hunks)⟩ := by
  have hisLine := @isLine_renderPatch bare _ h
  constructor
  · have hlines : Text.lines (trim (patchText (renderPatch bare hunks) nl)) =
        renderPatch bare hunks := by
      apply lines_trim_joinLines (c := '*') (d := 'h') (t := "*** End Patc".toList)
      · decide
      · decide
      · intro line hline
        apply hisLine
        rw [renderPatch, ← List.cons_append]
        exact List.mem_append_left _ hline
      · decide
    rw [parsePatch, hlines, checkStrict_renderPatch]
    exact parsePatchLines_render h
  · have hlines : Text.lines (trim (patchText (wrapHeredoc (renderPatch bare hunks)) nl)) =
        wrapHeredoc (renderPatch bare hunks) := by
      apply lines_trim_joinLines (c := '<') (d := 'F') (t := "EO".toList)
      · decide
      · decide
      · intro line hline
        obtain hline | hline := List.mem_cons.mp hline
        · rw [hline]
          exact isLine_opener
        · exact hisLine line hline
      · decide
    have hstrict : checkPatchBoundariesStrict (wrapHeredoc (renderPatch bare hunks)) =
        .error (.invalidPatchError firstLineMessage) := by
      rw [checkPatchBoundariesStrict, wrapHeredoc, List.head?_cons]
      rfl
    have hlenient : checkPatchBoundariesLenient (wrapHeredoc (renderPatch bare hunks))
        (.invalidPatchError firstLineMessage) = .ok (renderPatch bare hunks) := by
      have hlast : (wrapHeredoc (renderPatch bare hunks)).getLast? = some "EOF".toList := by
        rw [wrapHeredoc, ← List.cons_append, List.getLast?_concat]
      have hlen : 4 ≤ (wrapHeredoc (renderPatch bare hunks)).length := by
        simp [wrapHeredoc, renderPatch]
      have hinner : ((wrapHeredoc (renderPatch bare hunks)).drop 1).dropLast =
          renderPatch bare hunks := by
        rw [wrapHeredoc, List.drop_one, List.tail_cons, List.dropLast_concat]
      have hhead : (wrapHeredoc (renderPatch bare hunks)).head? = some "<<'EOF'".toList := rfl
      rw [checkPatchBoundariesLenient, hhead, hlast, hinner]
      dsimp only
      rw [checkStrict_renderPatch]
      exact if_pos ⟨by omega, by decide, by decide, hlen⟩
    rw [parsePatch, hlines, hstrict]
    dsimp only
    rw [hlenient]
    exact parsePatchLines_render h

/-- An update with a bare first chunk and a last one at the end of the file. -/
theorem parsePatch_update_of_a :
    (parsePatch ("*** Begin Patch\n*** Update File: a\n-x\n+y\n@@ f\n+z\n*** End of File\n" ++
        "*** End Patch\n").toList).map ParsedPatch.hunks =
      .ok [.updateFile ['a'] none [⟨none, [['x']], [['y']], false⟩,
        ⟨some ['f'], [], [['z']], true⟩]] := by
  have hprintable : ∀ hunk ∈ [ParsedHunk.updateFile ['a'] none [⟨none, [['x']], [['y']], false⟩,
      ⟨some ['f'], [], [['z']], true⟩]], PrintableHunk hunk := by
    intro hunk hhunk
    have hpath : IsPath ['a'] := ⟨by decide, by decide, by decide⟩
    rw [List.mem_singleton.mp hhunk]
    refine ⟨hpath, nofun, by decide, ?_⟩
    simp only [List.mem_cons, List.not_mem_nil, or_false]
    rintro _ (rfl | rfl)
    · exact ⟨by decide, nofun, by decide, by decide⟩
    · exact ⟨by decide, by rintro _ ⟨⟩; decide, by decide, by decide⟩
  have hparse := (parsePatch_renderPatch true true _ hprintable).1
  have htext : patchText (renderPatch true [.updateFile ['a'] none
      [⟨none, [['x']], [['y']], false⟩, ⟨some ['f'], [], [['z']], true⟩]]) true =
      ("*** Begin Patch\n*** Update File: a\n-x\n+y\n@@ f\n+z\n*** End of File\n" ++
        "*** End Patch\n").toList := by
    decide +kernel
  rw [← htext, hparse]
  rfl

end Text

end GrokBuild.ApplyPatch
