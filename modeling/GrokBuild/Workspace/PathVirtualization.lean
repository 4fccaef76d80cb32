import GrokBuild.Text.Segments

/-!
# Path virtualization

`path_virtualization.rs`: the mapping of a model path to the guest tree of one session. The
prefix tests run on the text of the path; the walk out of the session root is clipped on
the normalized text.
-/

namespace GrokBuild.Workspace

open GrokBuild.Text

def visibleRoot : Str := "/workspace".toList

def artifactsAlias : Str := "/workspace/artifacts".toList

def isDot (part : Str) : Bool := part == ".".toList

def isDotDot (part : Str) : Bool := part == "..".toList

/-- `format!("/{}", parts.join("/"))`. -/
def rootedText (parts : List Str) : Str := '/' :: joinOnChar '/' parts

/-- Guest POSIX root: absolute, at least one segment, no `.`/`..`. -/
def normalizeSessionRoot (path : Str) : Option Str :=
  if startsWith path ['/'] then
    let parts := (splitOnChar '/' path).filter fun part => !part.isEmpty
    if parts.any fun part => isDot part || isDotDot part then none
    else if parts.isEmpty then none
    else some (rootedText parts)
  else none

/-- One segment of `lexically_normalize`; the stack is reversed, and popping an empty one
walks above `/`. -/
def pushPart (parts : List Str) (part : Str) : Option (List Str) :=
  if part.isEmpty || isDot part then some parts
  else if isDotDot part then
    match parts with
    | [] => none
    | _ :: parts => some parts
  else some (part :: parts)

def lexicallyNormalize (path : Str) : Option Str :=
  if startsWith path ['/'] then
    let trailingSlash := endsWith path ['/'] && decide (1 < path.length)
    ((splitOnChar '/' path).foldlM pushPart []).map fun parts =>
      if parts.isEmpty then ['/']
      else rootedText parts.reverse ++ (if trailingSlash then ['/'] else [])
  else none

/-- The normalized path, when it lexically stays under `realRoot`. -/
def stayUnderRealRoot (path realRoot : Str) : Option Str :=
  (lexicallyNormalize path).bind fun normalized =>
    if normalized == realRoot || startsWith normalized (realRoot ++ ['/']) then some normalized
    else none

/-- The suffix when `path` is `base` or `base/...` (not `base-foo`). -/
def pathPrefixMatch (path base : Str) : Option Str :=
  if path == base then some []
  else (stripPrefix path base).bind fun rest => if startsWith rest ['/'] then some rest else none

def joinRootSuffix (root suffix : Str) : Str :=
  if suffix.isEmpty then root
  else if startsWith suffix ['/'] then root ++ suffix
  else root ++ '/' :: suffix

/-! ## The segments a path is normalized to -/

/-- A segment a normalized path can hold. -/
structure PlainPart (part : Str) : Prop where
  ne_nil : part ≠ []
  not_dot : isDot part = false
  not_dotDot : isDotDot part = false
  no_slash : '/' ∉ part

/-- One segment of the walk from `/`, where `..` stays put; the stack is reversed. -/
def walkPart (parts : List Str) (part : Str) : List Str :=
  if part.isEmpty || isDot part then parts
  else if isDotDot part then parts.tail
  else part :: parts

/-- The segments, from the root, of the directory entry that `path` lexically names. -/
def normalSegments (path : Str) : List Str := ((splitOnChar '/' path).foldl walkPart []).reverse

def IsAbsolute (path : Str) : Prop := startsWith path ['/'] = true

instance (path : Str) : Decidable (IsAbsolute path) := inferInstanceAs (Decidable (_ = _))

/-- The path is absolute and normalizes to `root` or below it. -/
def LiesUnder (root path : Str) : Prop :=
  IsAbsolute path ∧ normalSegments root <+: normalSegments path

instance (root path : Str) : Decidable (LiesUnder root path) :=
  inferInstanceAs (Decidable (_ ∧ _))

theorem pushPart_eq_walkPart {parts parts' : List Str} {part : Str}
    (h : pushPart parts part = some parts') : walkPart parts part = parts' := by
  unfold pushPart at h
  unfold walkPart
  split at h
  · rename_i hskip
    rw [if_pos hskip]
    exact Option.some.inj h
  · rename_i hskip
    rw [if_neg hskip]
    split at h
    · rename_i hdots
      rw [if_pos hdots]
      cases parts with
      | nil => cases h
      | cons top rest => exact Option.some.inj h
    · rename_i hdots
      rw [if_neg hdots]
      exact Option.some.inj h

theorem foldlM_pushPart_eq_foldl {parts parts' segments : List Str}
    (h : segments.foldlM pushPart parts = some parts') :
    segments.foldl walkPart parts = parts' := by
  induction segments generalizing parts with
  | nil => exact Option.some.inj h
  | cons segment segments ih =>
    rw [List.foldlM_cons] at h
    obtain ⟨next, hnext, hrest⟩ := Option.bind_eq_some_iff.mp h
    rw [List.foldl_cons, pushPart_eq_walkPart hnext]
    exact ih hrest

theorem pushPart_plain {parts : List Str} {part : Str} (h : PlainPart part) :
    pushPart parts part = some (part :: parts) := by
  have hne : part.isEmpty = false := by simpa using h.ne_nil
  simp [pushPart, hne, h.not_dot, h.not_dotDot]

theorem foldlM_pushPart_plain {segments : List Str} (h : ∀ part ∈ segments, PlainPart part)
    (parts : List Str) : segments.foldlM pushPart parts = some (segments.reverse ++ parts) := by
  induction segments generalizing parts with
  | nil => rfl
  | cons segment segments ih =>
    rw [List.foldlM_cons, pushPart_plain (h segment List.mem_cons_self)]
    change segments.foldlM pushPart (segment :: parts) = _
    rw [ih (fun part hm => h part (List.mem_cons_of_mem _ hm))]
    simp

/-- A walk over slash-free segments keeps the stack plain. -/
theorem walkPart_keeps_plain {parts : List Str} {part : Str}
    (hparts : ∀ p ∈ parts, PlainPart p) (hslash : '/' ∉ part) :
    ∀ p ∈ walkPart parts part, PlainPart p := by
  unfold walkPart
  split
  · exact hparts
  · rename_i hskip
    split
    · intro p hp
      exact hparts p (List.mem_of_mem_tail hp)
    · rename_i hdots
      rw [Bool.or_eq_true, not_or] at hskip
      intro p hp
      rcases List.mem_cons.mp hp with rfl | hp
      · exact ⟨by simpa using hskip.1, by simpa using hskip.2, by simpa using hdots, hslash⟩
      · exact hparts p hp

theorem foldl_walkPart_plain {parts segments : List Str} (hparts : ∀ p ∈ parts, PlainPart p)
    (hslash : ∀ part ∈ segments, '/' ∉ part) :
    ∀ p ∈ segments.foldl walkPart parts, PlainPart p := by
  induction segments generalizing parts with
  | nil => exact hparts
  | cons segment segments ih =>
    rw [List.foldl_cons]
    apply ih
    · exact walkPart_keeps_plain hparts (hslash segment List.mem_cons_self)
    · exact fun part hm => hslash part (List.mem_cons_of_mem _ hm)

theorem normalSegments_plain (path : Str) : ∀ part ∈ normalSegments path, PlainPart part := by
  intro part hpart
  rw [normalSegments, List.mem_reverse] at hpart
  exact foldl_walkPart_plain (by simp) (fun _ hm => not_mem_of_mem_splitOnChar hm) part hpart

/-! ## Rooted texts -/

theorem splitOnChar_rootedText {segments : List Str} (hne : segments ≠ [])
    (h : ∀ part ∈ segments, PlainPart part) :
    splitOnChar '/' (rootedText segments) = [] :: segments := by
  rw [rootedText, splitOnChar_sep,
    splitOnChar_joinOnChar hne fun part hm => (h part hm).no_slash]

theorem splitOnChar_rootedText_slash {segments : List Str} (hne : segments ≠ [])
    (h : ∀ part ∈ segments, PlainPart part) :
    splitOnChar '/' (rootedText segments ++ ['/']) = [] :: segments ++ [[]] := by
  rw [splitOnChar_append, splitOnChar_rootedText hne h]
  rfl

/-- The rooted text of plain segments, with or without a slash at its end, walks to them. -/
theorem foldlM_pushPart_rootedText {segments : List Str} (hne : segments ≠ [])
    (h : ∀ part ∈ segments, PlainPart part) {slash : Str} (hslash : slash = [] ∨ slash = ['/']) :
    (splitOnChar '/' (rootedText segments ++ slash)).foldlM pushPart [] = some segments.reverse := by
  have hempty (parts : List Str) : pushPart parts [] = some parts := rfl
  rcases hslash with rfl | rfl
  · rw [List.append_nil, splitOnChar_rootedText hne h, List.foldlM_cons, hempty]
    exact (foldlM_pushPart_plain h []).trans (by simp)
  · rw [splitOnChar_rootedText_slash hne h, List.cons_append, List.foldlM_cons, hempty]
    change (segments ++ [[]]).foldlM pushPart [] = _
    rw [List.foldlM_append, foldlM_pushPart_plain h]
    simp [hempty]

theorem normalSegments_rootedText {segments : List Str} (hne : segments ≠ [])
    (h : ∀ part ∈ segments, PlainPart part) {slash : Str} (hslash : slash = [] ∨ slash = ['/']) :
    normalSegments (rootedText segments ++ slash) = segments := by
  rw [normalSegments, foldlM_pushPart_eq_foldl (foldlM_pushPart_rootedText hne h hslash),
    List.reverse_reverse]

/-- What `lexically_normalize` returns: `/` or the rooted text of the normal segments. -/
theorem lexicallyNormalize_cases {path normalized : Str}
    (h : lexicallyNormalize path = some normalized) :
    IsAbsolute path ∧
      ((normalSegments path = [] ∧ normalized = ['/']) ∨
        (normalSegments path ≠ [] ∧ ∃ slash, (slash = [] ∨ slash = ['/']) ∧
          normalized = rootedText (normalSegments path) ++ slash)) := by
  unfold lexicallyNormalize at h
  split at h
  · rename_i habs
    refine ⟨habs, ?_⟩
    obtain ⟨parts, hparts, hout⟩ := Option.map_eq_some_iff.mp h
    have hseg : normalSegments path = parts.reverse := by
      rw [normalSegments, foldlM_pushPart_eq_foldl hparts]
    by_cases hp : parts = []
    · left
      rw [hp] at hout hseg
      exact ⟨hseg, hout.symm⟩
    · right
      rw [if_neg (by simpa using hp)] at hout
      refine ⟨by simpa [hseg] using hp, _, ?_, hseg ▸ hout.symm⟩
      split
      · exact .inr rfl
      · exact .inl rfl
  · cases h

theorem startsWith_slash_rootedText (segments : List Str) (s : Str) :
    startsWith (rootedText segments ++ s) ['/'] = true := by
  simp [startsWith, rootedText]

theorem normalSegments_lexicallyNormalize {path normalized : Str}
    (h : lexicallyNormalize path = some normalized) :
    IsAbsolute normalized ∧ normalSegments normalized = normalSegments path := by
  obtain ⟨-, ⟨hnil, rfl⟩ | ⟨hne, slash, hslash, rfl⟩⟩ := lexicallyNormalize_cases h
  · exact ⟨rfl, hnil.symm⟩
  · exact ⟨startsWith_slash_rootedText _ _,
      normalSegments_rootedText hne (normalSegments_plain path) hslash⟩

/-- A rooted text of plain segments is its own normal form. -/
theorem lexicallyNormalize_rootedText {segments : List Str} (hne : segments ≠ [])
    (h : ∀ part ∈ segments, PlainPart part) {slash : Str} (hslash : slash = [] ∨ slash = ['/']) :
    lexicallyNormalize (rootedText segments ++ slash) = some (rootedText segments ++ slash) := by
  have hrev : segments.reverse.isEmpty = false := by simpa using hne
  -- a joined text of plain segments ends in the last character of its last segment
  have hlast : endsWith (rootedText segments) ['/'] = false := by
    by_contra hend
    rw [Bool.not_eq_false, endsWith, List.isSuffixOf_iff_suffix] at hend
    obtain ⟨body, hbody⟩ := hend
    have hsplit := splitOnChar_rootedText hne h
    rw [← hbody, splitOnChar_append] at hsplit
    have hmem : ([] : Str) ∈ segments := by
      have hgl := congrArg List.getLast? hsplit
      rw [List.getLast?_append] at hgl
      simp only [splitOnChar, List.getLast?_singleton, Option.some_or] at hgl
      rw [List.getLast?_cons] at hgl
      cases hs : segments.getLast? with
      | none => exact absurd (List.getLast?_eq_none_iff.mp hs) hne
      | some last =>
        rw [hs, Option.getD_some] at hgl
        exact Option.some.inj hgl ▸ List.mem_of_getLast? hs
    exact (h [] hmem).ne_nil rfl
  rw [lexicallyNormalize, if_pos (startsWith_slash_rootedText segments slash),
    foldlM_pushPart_rootedText hne h hslash, Option.map_some, hrev, List.reverse_reverse]
  rcases hslash with rfl | rfl
  · simp [hlast]
  · have hend : endsWith (rootedText segments ++ ['/']) ['/'] = true := by
      simp [endsWith, List.isSuffixOf_iff_suffix]
    have hlen : 1 < (rootedText segments ++ ['/']).length := by simp [rootedText]
    simp only [hend, hlen, decide_true, Bool.and_self, if_true]
    rfl

theorem lexicallyNormalize_idem {path normalized : Str}
    (h : lexicallyNormalize path = some normalized) :
    lexicallyNormalize normalized = some normalized := by
  obtain ⟨-, ⟨-, rfl⟩ | ⟨hne, slash, hslash, rfl⟩⟩ := lexicallyNormalize_cases h
  · decide
  · exact lexicallyNormalize_rootedText hne (normalSegments_plain path) hslash

/-- The parts of a normal form: its segments, and an empty one after a slash at the end. -/
theorem splitOnChar_lexicallyNormalize {path normalized : Str}
    (h : lexicallyNormalize path = some normalized) :
    ∃ tail, (tail = [] ∨ tail = [[]]) ∧
      splitOnChar '/' normalized = [] :: (normalSegments path ++ tail) := by
  obtain ⟨-, ⟨hnil, rfl⟩ | ⟨hne, slash, rfl | rfl, rfl⟩⟩ := lexicallyNormalize_cases h
  · exact ⟨[[]], .inr rfl, by rw [hnil]; decide⟩
  · refine ⟨[], .inl rfl, ?_⟩
    rw [List.append_nil, List.append_nil, splitOnChar_rootedText hne (normalSegments_plain path)]
  · refine ⟨[[]], .inr rfl, ?_⟩
    rw [splitOnChar_rootedText_slash hne (normalSegments_plain path), List.cons_append]

theorem pathPrefixMatch_isSome_of_startsWith {path base : Str}
    (h : startsWith path (base ++ ['/']) = true) : (pathPrefixMatch path base).isSome := by
  obtain ⟨rest, rfl⟩ := List.isPrefixOf_iff_prefix.mp h
  have hstrip : stripPrefix (base ++ ['/'] ++ rest) base = some ('/' :: rest) := by
    simp [stripPrefix, startsWith, List.isPrefixOf_iff_prefix]
  have hslash : startsWith ('/' :: rest) ['/'] = true := by simp [startsWith]
  rw [pathPrefixMatch]
  split
  · rfl
  · rw [hstrip, Option.bind_some, if_pos hslash]
    rfl

/-- An accepted session root is the rooted text of its own normal segments. -/
theorem normalizeSessionRoot_eq_some {path root : Str} (h : normalizeSessionRoot path = some root) :
    normalSegments root ≠ [] ∧ root = rootedText (normalSegments root) := by
  unfold normalizeSessionRoot at h
  split at h
  · dsimp only at h
    split at h
    · cases h
    · rename_i hdots
      split at h
      · cases h
      · rename_i hne
        rw [← Option.some.inj h]
        set parts := (splitOnChar '/' path).filter fun part => !part.isEmpty with hparts
        have hplain : ∀ part ∈ parts, PlainPart part := by
          intro part hm
          have hdot : ¬(isDot part || isDotDot part) = true :=
            fun hd => hdots (List.any_eq_true.mpr ⟨part, hm, hd⟩)
          rw [Bool.or_eq_true, not_or] at hdot
          obtain ⟨hsplit, hnil⟩ := List.mem_filter.mp hm
          exact ⟨by simpa using hnil, by simpa using hdot.1, by simpa using hdot.2,
            not_mem_of_mem_splitOnChar hsplit⟩
        have hparts_ne : parts ≠ [] := by simpa using hne
        have hseg : normalSegments (rootedText parts) = parts := by
          simpa using normalSegments_rootedText hparts_ne hplain (.inl rfl)
        rw [hseg]
        exact ⟨hparts_ne, rfl⟩
  · cases h

theorem normalizeSessionRoot_rootedText {segments : List Str} (hne : segments ≠ [])
    (h : ∀ part ∈ segments, PlainPart part) :
    normalizeSessionRoot (rootedText segments) = some (rootedText segments) := by
  have hfilter : (splitOnChar '/' (rootedText segments)).filter (fun part => !part.isEmpty) =
      segments := by
    rw [splitOnChar_rootedText hne h, List.filter_cons_of_neg (by simp), List.filter_eq_self]
    intro part hm
    simpa using (h part hm).ne_nil
  have hany : segments.any (fun part => isDot part || isDotDot part) = false := by
    rw [List.any_eq_false]
    intro part hm
    simp [(h part hm).not_dot, (h part hm).not_dotDot]
  have habs : startsWith (rootedText segments) ['/'] = true := by simp [startsWith, rootedText]
  have hempty : segments.isEmpty = false := by simpa using hne
  simp only [normalizeSessionRoot, habs, if_true, hfilter, hany, hempty, Bool.false_eq_true,
    if_false]

theorem normalizeSessionRoot_idem {path root : Str} (h : normalizeSessionRoot path = some root) :
    normalizeSessionRoot root = some root := by
  obtain ⟨hne, hroot⟩ := normalizeSessionRoot_eq_some h
  rw [hroot]
  exact normalizeSessionRoot_rootedText hne (normalSegments_plain root)

/-! ## The mapping of one session -/

/-- Two-way mapping between `visible_root`, which is always `VISIBLE_ROOT`, and `real_root`,
which is always one that `normalize_session_root` returns. -/
structure PathVirtualization where
  realRoot : Str
  real_root_normal : normalizeSessionRoot realRoot = some realRoot
deriving DecidableEq

/-- A mapping if `sessionRoot` is a usable absolute guest path. -/
def tryFromSessionRoot (sessionRoot : Str) : Option PathVirtualization :=
  match h : normalizeSessionRoot sessionRoot with
  | some real => some ⟨real, normalizeSessionRoot_idem h⟩
  | none => none

namespace PathVirtualization

/-- The path rewritten onto the real root, when its text starts with one of the prefixes. -/
def mapped (v : PathVirtualization) (path : Str) : Option Str :=
  if (pathPrefixMatch path v.realRoot).isSome then some path
  else
    match pathPrefixMatch path artifactsAlias with
    | some rest => some (joinRootSuffix v.realRoot rest)
    | none => (pathPrefixMatch path visibleRoot).map (joinRootSuffix v.realRoot)

/-- Inbound: a model path to the guest path. -/
def toGuest (v : PathVirtualization) (path : Str) : Str :=
  match v.mapped path with
  | none => path
  | some mapped => (stayUnderRealRoot mapped v.realRoot).getD v.realRoot

/-- The text of the path is one of the three prefixes or goes on with a slash after it. -/
def WrittenUnder (v : PathVirtualization) (path : Str) : Prop :=
  (pathPrefixMatch path v.realRoot).isSome ∨ (pathPrefixMatch path artifactsAlias).isSome ∨
    (pathPrefixMatch path visibleRoot).isSome

instance (v : PathVirtualization) (path : Str) : Decidable (v.WrittenUnder path) :=
  inferInstanceAs (Decidable (_ ∨ _ ∨ _))

variable {v : PathVirtualization}

theorem realRoot_ne_nil : normalSegments v.realRoot ≠ [] :=
  (normalizeSessionRoot_eq_some v.real_root_normal).1

theorem realRoot_eq_rootedText : v.realRoot = rootedText (normalSegments v.realRoot) :=
  (normalizeSessionRoot_eq_some v.real_root_normal).2

theorem realRoot_absolute : IsAbsolute v.realRoot := by
  rw [IsAbsolute, realRoot_eq_rootedText]
  rfl

theorem lexicallyNormalize_realRoot : lexicallyNormalize v.realRoot = some v.realRoot := by
  rw [realRoot_eq_rootedText]
  simpa using lexicallyNormalize_rootedText realRoot_ne_nil (normalSegments_plain v.realRoot)
    (.inl rfl)

theorem writtenUnder_iff_mapped (path : Str) : v.WrittenUnder path ↔ (v.mapped path).isSome := by
  unfold WrittenUnder mapped
  split
  · simp_all
  · rename_i hreal
    split
    · simp_all
    · simp_all

/-! ## What stays under the real root -/

/-- A text that goes on with a slash after the real root's normalizes to the real root or
below it, when it is a normal form. -/
theorem liesUnder_of_startsWith {normalized path : Str}
    (h : lexicallyNormalize path = some normalized)
    (hstarts : startsWith normalized (v.realRoot ++ ['/']) = true) :
    LiesUnder v.realRoot normalized := by
  obtain ⟨habs, hseg⟩ := normalSegments_lexicallyNormalize h
  refine ⟨habs, ?_⟩
  rw [hseg]
  obtain ⟨rest, hrest⟩ := List.isPrefixOf_iff_prefix.mp hstarts
  have hroot := splitOnChar_rootedText (realRoot_ne_nil (v := v)) (normalSegments_plain v.realRoot)
  rw [← realRoot_eq_rootedText] at hroot
  obtain ⟨tail, htail, hsplit⟩ := splitOnChar_lexicallyNormalize h
  rw [← hrest, List.append_assoc, List.singleton_append, splitOnChar_append, hroot,
    List.cons_append, List.cons.injEq] at hsplit
  have hpre : normalSegments v.realRoot <+: normalSegments path ++ tail := ⟨_, hsplit.2⟩
  rcases List.prefix_or_prefix_of_prefix hpre (List.prefix_append _ tail) with hle | ⟨more, hmore⟩
  · exact hle
  · -- the root can go past the segments only by the empty one after a slash at the end
    rw [← hmore, List.prefix_append_right_inj] at hpre
    have hplain : ∀ part ∈ more, part ≠ [] := by
      intro part hm
      have hmem : part ∈ normalSegments v.realRoot := hmore ▸ List.mem_append_right _ hm
      exact (normalSegments_plain v.realRoot part hmem).ne_nil
    have hnil : more = [] := by
      rcases htail with rfl | rfl
      · exact List.prefix_nil.mp hpre
      · by_contra hne
        obtain ⟨part, hm⟩ := List.exists_mem_of_ne_nil more hne
        exact hplain part hm (List.mem_singleton.mp (hpre.subset hm))
    rw [← hmore, hnil, List.append_nil]

/-- Whatever `stay_under_real_root` returns starts with the real root in text and in
meaning, and is its own normal form. -/
theorem stayUnderRealRoot_eq_some {path resolved : Str}
    (h : stayUnderRealRoot path v.realRoot = some resolved) :
    LiesUnder v.realRoot resolved ∧ (pathPrefixMatch resolved v.realRoot).isSome ∧
      stayUnderRealRoot resolved v.realRoot = some resolved := by
  obtain ⟨normalized, hnorm, hstay⟩ := Option.bind_eq_some_iff.mp h
  split at hstay
  · rename_i hunder
    obtain rfl := Option.some.inj hstay
    have hself : stayUnderRealRoot normalized v.realRoot = some normalized := by
      rw [stayUnderRealRoot, lexicallyNormalize_idem hnorm, Option.bind_some, if_pos hunder]
    refine ⟨?_, ?_, hself⟩
    · rw [Bool.or_eq_true, beq_iff_eq] at hunder
      rcases hunder with rfl | hstarts
      · exact ⟨realRoot_absolute, List.prefix_refl _⟩
      · exact liesUnder_of_startsWith hnorm hstarts
    · rw [Bool.or_eq_true, beq_iff_eq] at hunder
      rcases hunder with heq | hstarts
      · simp [pathPrefixMatch, heq]
      · exact pathPrefixMatch_isSome_of_startsWith hstarts
  · cases hstay

theorem stayUnderRealRoot_realRoot : stayUnderRealRoot v.realRoot v.realRoot = some v.realRoot := by
  rw [stayUnderRealRoot, lexicallyNormalize_realRoot]
  simp

/-- A path written under one of the prefixes is answered with the real root or a normal
form below it, whatever the rest of it spells. -/
theorem toGuest_of_writtenUnder {path : Str} (h : v.WrittenUnder path) :
    ∃ resolved, v.toGuest path = resolved ∧ LiesUnder v.realRoot resolved ∧
      (pathPrefixMatch resolved v.realRoot).isSome ∧
      stayUnderRealRoot resolved v.realRoot = some resolved := by
  obtain ⟨mapped, hmapped⟩ := Option.isSome_iff_exists.mp ((writtenUnder_iff_mapped path).mp h)
  have hguest : v.toGuest path = (stayUnderRealRoot mapped v.realRoot).getD v.realRoot := by
    rw [toGuest, hmapped]
  cases hstay : stayUnderRealRoot mapped v.realRoot with
  | some resolved =>
    rw [hstay] at hguest
    exact ⟨resolved, hguest, stayUnderRealRoot_eq_some hstay⟩
  | none =>
    rw [hstay] at hguest
    exact ⟨v.realRoot, hguest, stayUnderRealRoot_eq_some stayUnderRealRoot_realRoot⟩

theorem toGuest_of_not_writtenUnder {path : Str} (h : ¬v.WrittenUnder path) :
    v.toGuest path = path := by
  rw [writtenUnder_iff_mapped, Option.not_isSome_iff_eq_none] at h
  rw [toGuest, h]

theorem toGuest_idem (path : Str) : v.toGuest (v.toGuest path) = v.toGuest path := by
  by_cases h : v.WrittenUnder path
  · obtain ⟨resolved, hguest, -, hpre, hstay⟩ := toGuest_of_writtenUnder h
    rw [hguest, toGuest, mapped, if_pos hpre]
    simp [hstay]
  · rw [toGuest_of_not_writtenUnder h, toGuest_of_not_writtenUnder h]

/-- The guest path stays in the session's tree unless a path that is written under none of
the prefixes names another directory under the visible root; mapping twice is mapping once;
and a path that names nothing under either root is kept, or, when it is written under a
prefix, taken into the session's tree. -/
theorem toGuest_contained (v : PathVirtualization) (path : Str) :
    ((v.WrittenUnder path ∨ ¬LiesUnder visibleRoot path ∨ LiesUnder v.realRoot path) →
      LiesUnder visibleRoot (v.toGuest path) → LiesUnder v.realRoot (v.toGuest path)) ∧
    v.toGuest (v.toGuest path) = v.toGuest path ∧
    (¬LiesUnder visibleRoot path → ¬LiesUnder v.realRoot path →
      if v.WrittenUnder path then LiesUnder v.realRoot (v.toGuest path)
      else v.toGuest path = path) := by
  have hwritten (h : v.WrittenUnder path) : LiesUnder v.realRoot (v.toGuest path) := by
    obtain ⟨resolved, hguest, hunder, -⟩ := toGuest_of_writtenUnder h
    rw [hguest]
    exact hunder
  refine ⟨?_, toGuest_idem path, ?_⟩
  · intro hspelled hvisible
    by_cases h : v.WrittenUnder path
    · exact hwritten h
    · rw [toGuest_of_not_writtenUnder h] at hvisible ⊢
      rcases hspelled with hw | hout | hin
      · exact absurd hw h
      · exact absurd hvisible hout
      · exact hin
  · intro _ _
    split
    · rename_i h
      exact hwritten h
    · rename_i h
      exact toGuest_of_not_writtenUnder h

/-- A `..` walk out of the visible root is clipped, not kept, and a path whose text starts
elsewhere reaches the directory of another session. -/
theorem toGuest_other_conv :
    ∃ v, tryFromSessionRoot "/workspace/conv-abc".toList = some v ∧
      (¬LiesUnder visibleRoot "/workspace/../other-conv/secret".toList ∧
        ¬LiesUnder v.realRoot "/workspace/../other-conv/secret".toList ∧
        v.toGuest "/workspace/../other-conv/secret".toList = "/workspace/conv-abc".toList) ∧
      LiesUnder visibleRoot (v.toGuest "/tmp/../workspace/other-conv/secret".toList) ∧
      ¬LiesUnder v.realRoot (v.toGuest "/tmp/../workspace/other-conv/secret".toList) := by
  refine ⟨⟨"/workspace/conv-abc".toList, by decide⟩, by decide, ?_, ?_⟩
  · decide
  · decide

end PathVirtualization

end GrokBuild.Workspace
