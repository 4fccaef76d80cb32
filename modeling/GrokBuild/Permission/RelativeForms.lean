import Mathlib
import GrokBuild.Permission.ShellPath
import GrokBuild.Text.Lines

/-!
# The relative spellings of a path

A path below the working directory is matched under its relative spellings as well. The spellings
are texts in which every backslash has become a slash, while the path was normalized with the
backslash as part of a name.
-/

namespace GrokBuild.Permission
open Text

/-! ## Normalized absolute paths -/

/-- A name that normalization keeps. -/
structure IsName (name : Str) : Prop where
  noSlash : '/' ∉ name
  significant : isSignificant name = true
  notParent : name ≠ "..".toList

def rootedPath (names : List Str) : Str := '/' :: joinOnChar '/' names

/-- The names that normalization leaves of an absolute path. -/
def keptNames (path : Str) : List Str := collapsed true (splitOnChar '/' path)

section Names

variable {names base : List Str} {name path : Str}

theorem IsName.ne_nil (h : IsName name) : name ≠ [] := by
  rintro rfl
  exact absurd h.significant (by decide)

theorem IsName.component (h : IsName name) : segmentComponent name = .normal name :=
  if_neg h.notParent

theorem IsName.relative (h : IsName name) : isAbsolute name = false := by
  cases name with
  | nil => rfl
  | cons c name =>
    rw [isAbsolute_cons, beq_eq_false_iff_ne]
    rintro rfl
    exact h.noSlash (List.mem_cons_self ..)

theorem dots_not_mem_foldl {kept : List Str} (h : "..".toList ∉ kept) (segments : List Str) :
    "..".toList ∉ segments.foldl (normalizeSegment true) kept := by
  induction segments generalizing kept with
  | nil => exact h
  | cons segment segments ih => exact ih (dots_not_mem_normalizeSegment h segment)

theorem isName_keptNames (path : Str) : ∀ name ∈ keptNames path, IsName name := by
  intro name hname
  obtain ⟨hslash, hsig⟩ := collapsed_parts hname
  refine ⟨hslash, hsig, ?_⟩
  rintro rfl
  exact dots_not_mem_foldl List.not_mem_nil (splitOnChar '/' path) (List.mem_reverse.mp hname)

theorem walk_names (h : ∀ name ∈ names, IsName name) (stack : List Component) :
    walk stack names = (names.map Component.normal).reverse ++ stack := by
  induction names generalizing stack with
  | nil => rfl
  | cons name names ih =>
    rw [List.forall_mem_cons] at h
    rw [walk_cons, h.1.component, ih h.2, List.map_cons, List.reverse_cons, List.append_assoc]
    rfl

theorem rootedPath_cons (name : Str) (names : List Str) :
    rootedPath (name :: names) = (name :: names).flatMap ('/' :: ·) := by
  rw [rootedPath, joinOnChar_cons_eq]
  rfl

theorem significantSegments_flatMap (h : ∀ name ∈ names, IsName name) :
    significantSegments (names.flatMap ('/' :: ·)) = names := by
  induction names with
  | nil => rfl
  | cons name names ih =>
    rw [List.forall_mem_cons] at h
    have hname : significantSegments name = [name] := by
      rw [significantSegments, splitOnChar_of_not_mem h.1.noSlash]
      exact List.filter_eq_self.mpr fun n hn => List.mem_singleton.mp hn ▸ h.1.significant
    have hslash (y : Str) : significantSegments ('/' :: y) = significantSegments y :=
      significantSegments_slash [] y
    cases names with
    | nil =>
      rw [List.flatMap_singleton, hslash, hname]
    | cons next names =>
      have hrest := ih h.2
      rw [List.flatMap_cons, List.cons_append, hslash] at hrest
      rw [List.flatMap_cons, List.cons_append, hslash, List.flatMap_cons, List.cons_append,
        significantSegments_slash, hname, hrest]
      rfl

theorem significantSegments_rootedPath (h : ∀ name ∈ names, IsName name) :
    significantSegments (rootedPath names) = names := by
  cases names with
  | nil => rfl
  | cons name names => rw [rootedPath_cons, significantSegments_flatMap h]

theorem isAbsolute_rootedPath (names : List Str) : isAbsolute (rootedPath names) = true := rfl

theorem components_rootedPath (h : ∀ name ∈ names, IsName name) :
    components (rootedPath names) = .rootDir :: names.map Component.normal := by
  have hmap : names.map segmentComponent = names.map Component.normal :=
    List.map_congr_left fun name hname => (h name hname).component
  show .rootDir :: (significantSegments (rootedPath names)).map segmentComponent = _
  rw [significantSegments_rootedPath h, hmap]

/-- The last name of a path does not end in a slash. -/
theorem endsWith_rootedPath (h : ∀ name ∈ names, IsName name) (hne : names ≠ []) :
    endsWith (rootedPath names) ['/'] = false := by
  obtain ⟨before, last, rfl⟩ := (List.eq_nil_or_concat names).resolve_left hne
  rw [List.concat_eq_append] at h ⊢
  have hlast := h last List.mem_concat_self
  have htext : rootedPath (before ++ [last]) =
      (before.flatMap ('/' :: ·) ++ ['/']) ++ last := by
    cases before with
    | nil =>
      rw [List.nil_append, rootedPath, joinOnChar_singleton]
      rfl
    | cons name before =>
      rw [List.cons_append, rootedPath_cons, ← List.cons_append, List.flatMap_append,
        List.flatMap_singleton, List.append_assoc]
      rfl
  rw [← Bool.not_eq_true, endsWith_singleton, htext, List.getLast?_append_of_ne_nil _ hlast.ne_nil]
  exact fun hget => hlast.noSlash (List.mem_of_getLast? hget)

theorem pathPush_rootedPath (hbase : ∀ name ∈ base, IsName name) (hname : IsName name) :
    pathPush (rootedPath base) name = rootedPath (base ++ [name]) := by
  have hempty : (rootedPath base).isEmpty = false := rfl
  rw [pathPush, hname.relative, if_neg Bool.false_ne_true, hempty, Bool.false_or]
  by_cases hne : base = []
  · subst hne
    rw [List.nil_append, rootedPath, rootedPath, joinOnChar_singleton]
    rfl
  · have hends : endsWith (rootedPath base) "/".toList = false := endsWith_rootedPath hbase hne
    obtain ⟨first, rest, rfl⟩ := List.exists_cons_of_ne_nil hne
    rw [hends, if_neg Bool.false_ne_true, List.cons_append, rootedPath_cons, rootedPath_cons,
      ← List.cons_append, List.flatMap_append, List.flatMap_singleton, List.append_assoc]
    rfl

theorem foldl_pathPush (hbase : ∀ name ∈ base, IsName name) (h : ∀ name ∈ names, IsName name) :
    (names.map Component.normal).foldl (fun p c => pathPush p c.asStr) (rootedPath base) =
      rootedPath (base ++ names) := by
  induction names generalizing base with
  | nil => rw [List.append_nil]; rfl
  | cons name names ih =>
    rw [List.forall_mem_cons] at h
    have hnext : ∀ n ∈ base ++ [name], IsName n := by
      intro n hn
      obtain hn | hn := List.mem_append.mp hn
      · exact hbase n hn
      · exact List.mem_singleton.mp hn ▸ h.1
    rw [List.map_cons, List.foldl_cons]
    show List.foldl _ (pathPush (rootedPath base) name) _ = _
    rw [pathPush_rootedPath hbase h.1, ih hnext h.2, List.append_assoc, List.singleton_append]

/-- A normalized absolute path is the names it keeps. -/
theorem normalizeLexically_of_isAbsolute (h : isAbsolute path = true) :
    normalizeLexically path = rootedPath (keptNames path) := by
  have hnames := isName_keptNames path
  have hwalk : (components path).foldl normalizeComponent [] =
      ((keptNames path).map Component.normal).reverse ++ [.rootDir] := by
    have hsame : walk [.rootDir] (significantSegments path) = walk [.rootDir] (keptNames path) :=
      (walk_collapsed (fun _ => rfl) (splitOnChar '/' path)).symm
    rw [foldl_components, walkRoot, if_pos h, hsame, walk_names hnames]
  have hpush := @foldl_pathPush _ [] (List.forall_mem_nil _) hnames
  rw [normalizeLexically, hwalk, List.reverse_append, List.reverse_reverse]
  exact hpush

theorem keptNames_eq (h : ∀ name ∈ significantSegments path, name ≠ "..".toList) :
    keptNames path = significantSegments path := by
  have hnames : ∀ name ∈ significantSegments path, IsName name := fun name hname =>
    ⟨not_mem_of_mem_splitOnChar (List.mem_of_mem_filter hname), (List.mem_filter.mp hname).2,
      h name hname⟩
  have hwalk : walk [.rootDir] (keptNames path) = walk [.rootDir] (significantSegments path) :=
    walk_collapsed (fun _ => rfl) (splitOnChar '/' path)
  rw [walk_names (isName_keptNames path), walk_names hnames, List.append_left_inj,
    List.reverse_inj] at hwalk
  exact List.map_injective_iff.mpr (fun a b hab => Component.normal.inj hab) hwalk

theorem rootedPath_inj (hnames : ∀ name ∈ names, IsName name) (hbase : ∀ name ∈ base, IsName name)
    (h : rootedPath names = rootedPath base) : names = base := by
  rw [← significantSegments_rootedPath hnames, h, significantSegments_rootedPath hbase]

/-- Names below others are their text behind a slash. -/
theorem rootedPath_append (hne : names ≠ []) (base : List Str) :
    rootedPath (base ++ names) = base.flatMap ('/' :: ·) ++ '/' :: joinOnChar '/' names := by
  cases base with
  | nil => rfl
  | cons name base =>
    obtain ⟨first, rest, rfl⟩ := List.exists_cons_of_ne_nil hne
    rw [List.cons_append, rootedPath_cons, ← List.cons_append, List.flatMap_append,
      List.flatMap_cons, joinOnChar_cons_eq]
    rfl

end Names

/-! ## Below the working directory -/

section Below

variable {names base : List Str} {path cwd : Str}

/-- The path is the directory or below it. -/
def Under (path base : Str) : Prop :=
  path = base ∨ startsWith path (if base = ['/'] then ['/'] else base ++ ['/']) = true

theorem under_iff (hnames : ∀ name ∈ names, IsName name) (hbase : ∀ name ∈ base, IsName name) :
    Under (rootedPath names) (rootedPath base) ↔ base <+: names := by
  constructor
  · rintro (h | h)
    · rw [rootedPath_inj hnames hbase h]
    · cases base with
      | nil => exact List.nil_prefix
      | cons name base =>
        have hroot : rootedPath (name :: base) ≠ ['/'] := by
          intro h
          have hsig := significantSegments_rootedPath hbase
          rw [h] at hsig
          cases hsig
        rw [if_neg hroot, startsWith, List.isPrefixOf_iff_prefix] at h
        obtain ⟨t, ht⟩ := h
        rw [List.append_assoc] at ht
        have hsig := significantSegments_rootedPath hnames
        rw [← ht, List.singleton_append, significantSegments_slash,
          significantSegments_rootedPath hbase] at hsig
        exact ⟨_, hsig⟩
  · rintro ⟨rest, rfl⟩
    by_cases hrest : rest = []
    · left
      rw [hrest, List.append_nil]
    · right
      rw [startsWith, List.isPrefixOf_iff_prefix]
      cases base with
      | nil => exact List.prefix_append ['/'] _
      | cons name base =>
        rw [rootedPath_append hrest, ← rootedPath_cons]
        split
        · rw [rootedPath, List.cons_append]
          exact List.prefix_append ['/'] _
        · exact ⟨joinOnChar '/' rest, by rw [List.append_assoc, List.singleton_append]⟩

theorem dropSignificant_eq (h : ∀ name ∈ names, isSignificant name = true) (n : ℕ) :
    dropSignificant n names = names.drop n := by
  induction names generalizing n with
  | nil =>
    cases n with
    | zero => rfl
    | succ n => rfl
  | cons name names ih =>
    rw [List.forall_mem_cons] at h
    cases n with
    | zero => rfl
    | succ n => rw [dropSignificant, if_pos h.1, ih h.2, List.drop_succ_cons]

theorem trim_significant (h : ∀ name ∈ names, isSignificant name = true) (lead : List Str)
    (hlead : ∀ name ∈ lead, isSignificant name = false) :
    ((lead ++ names).dropWhile (!isSignificant ·)).rdropWhile (!isSignificant ·) = names := by
  have hdrop : names.dropWhile (!isSignificant ·) = names := by
    cases names with
    | nil => rfl
    | cons name names =>
      exact List.dropWhile_cons_of_neg (by rw [h name (List.mem_cons_self ..)]; exact nofun)
  rw [List.dropWhile_append_of_pos fun name hname => by rw [hlead name hname]; rfl, hdrop,
    List.rdropWhile_eq_self_iff]
  intro hne
  rw [h _ (List.getLast_mem hne)]
  exact nofun

theorem pathStripPrefix_rootedPath (hnames : ∀ name ∈ names, IsName name)
    (hbase : ∀ name ∈ base, IsName name) :
    pathStripPrefix (rootedPath names) (rootedPath base) =
      if base <+: names then some (joinOnChar '/' (names.drop base.length)) else none := by
  have hprefix : (components (rootedPath base)).isPrefixOf (components (rootedPath names)) = true ↔
      base <+: names := by
    rw [components_rootedPath hnames, components_rootedPath hbase, List.isPrefixOf_iff_prefix,
      List.cons_prefix_cons, List.prefix_map_iff_of_injective fun a b => Component.normal.inj]
    exact and_iff_right rfl
  unfold pathStripPrefix
  by_cases h : base <+: names
  · have hsig : ∀ name ∈ names, isSignificant name = true := fun name hname =>
      (hnames name hname).significant
    have hdrop : ∀ name ∈ names.drop base.length, isSignificant name = true := fun name hname =>
      hsig name (List.mem_of_mem_drop hname)
    have hblank : ∀ name ∈ [([] : Str)], isSignificant name = false := fun name hname =>
      List.mem_singleton.mp hname ▸ rfl
    rw [if_pos ( hprefix.mpr h), if_pos h, components_rootedPath hnames,
      components_rootedPath hbase]
    -- the leading slash is the root, and the rest of the base are names
    have hconsumed : (Component.rootDir :: base.map Component.normal).length -
        (if ((Component.rootDir :: names.map Component.normal).head?.any fun c =>
          decide (c = .rootDir ∨ c = .curDir)) = true then 1 else 0) = base.length := by
      simp
    dsimp only
    rw [hconsumed]
    congr 1
    show joinOnChar '/' _ = _
    congr 1
    by_cases hne : names = []
    · subst hne
      obtain rfl := List.prefix_nil.mp h
      decide
    · have hsplit : splitOnChar '/' (rootedPath names) = [] :: names := by
        rw [rootedPath, splitOnChar_sep,
          splitOnChar_joinOnChar hne fun name hname => (hnames name hname).noSlash]
      rw [hsplit]
      cases hlen : base.length with
      | zero =>
        rw [List.drop_zero]
        exact trim_significant hsig [[]] hblank
      | succ n =>
        rw [dropSignificant, isSignificant_nil, if_neg Bool.false_ne_true,
          dropSignificant_eq hsig, ← hlen]
        exact trim_significant hdrop [] (List.forall_mem_nil _)
  · have hfalse : ¬(components (rootedPath base)).isPrefixOf (components (rootedPath names)) = true :=
      fun h' => h ( hprefix.mp h')
    rw [if_neg hfalse, if_neg h]

theorem joinOnChar_ne_dot (h : ∀ name ∈ names, IsName name) :
    pathMatchString (joinOnChar '/' names) ≠ ".".toList := by
  intro hdot
  obtain ⟨c, hjoin, hc⟩ := List.map_eq_singleton_iff.mp hdot
  split at hc
  · cases hc
  · subst hc
    have hsig := significantSegments_join fun n hn => ⟨(h n hn).noSlash, (h n hn).significant⟩
    rw [hjoin] at hsig
    cases names with
    | nil => cases hjoin
    | cons name names => cases hsig

/-- The spellings of a path, by the names that normalization keeps. -/
theorem pathMatchForms_eq (hcwd : isAbsolute cwd = true) (htilde : isTildePath path = false) :
    pathMatchForms path (some cwd) =
      if keptNames cwd <+: keptNames (pathPush cwd path) then
        let below := (keptNames (pathPush cwd path)).drop (keptNames cwd).length
        if below = [] then
          [pathMatchString (rootedPath (keptNames (pathPush cwd path))), ".".toList, "./".toList]
        else
          [pathMatchString (rootedPath (keptNames (pathPush cwd path))),
            "./".toList ++ pathMatchString (joinOnChar '/' below),
            pathMatchString (joinOnChar '/' below)]
      else [pathMatchString (rootedPath (keptNames (pathPush cwd path)))] := by
  have hnames := isName_keptNames (pathPush cwd path)
  have hbase := isName_keptNames cwd
  have habs : absoluteNormalizedPath path (some cwd) = rootedPath (keptNames (pathPush cwd path)) := by
    rw [absoluteNormalizedPath, htilde, joinCwd_some,
      normalizeLexically_of_isAbsolute (isAbsolute_pathPush hcwd path)]
    rfl
  rw [pathMatchForms, habs]
  dsimp only
  rw [normalizeLexically_of_isAbsolute hcwd, pathStripPrefix_rootedPath hnames hbase]
  by_cases hprefix : keptNames cwd <+: keptNames (pathPush cwd path)
  · rw [if_pos hprefix, if_pos hprefix]
    dsimp only
    have hbelow : ∀ name ∈ (keptNames (pathPush cwd path)).drop (keptNames cwd).length,
        IsName name := fun name hname => hnames name (List.mem_of_mem_drop hname)
    generalize (keptNames (pathPush cwd path)).drop (keptNames cwd).length = below at hbelow
    have hdot : (pathMatchString (joinOnChar '/' below) == ".".toList) = false :=
      beq_eq_false_iff_ne.mpr (joinOnChar_ne_dot hbelow)
    rw [hdot, Bool.or_false]
    cases below with
    | nil => rfl
    | cons name below =>
      have hne : (pathMatchString (joinOnChar '/' (name :: below))).isEmpty = false := by
        rw [joinOnChar_cons_eq, pathMatchString_append, List.isEmpty_eq_false_iff]
        apply List.append_ne_nil_of_left_ne_nil
        intro hnil
        have hlen := length_pathMatchString name
        rw [hnil] at hlen
        exact (hbelow name (List.mem_cons_self ..)).ne_nil (List.eq_nil_of_length_eq_zero hlen.symm)
      rw [hne]
      rfl
  · rw [if_neg hprefix, if_neg hprefix]

end Below

/-! ## Backslashes -/

section Backslashes

variable {names base : List Str} {path cwd : Str}

def isDots (segment : Str) : Bool := segment == ".".toList || segment == "..".toList

/-- No segment of the text is a dot segment. -/
def NoDots (form : Str) : Prop := ∀ segment ∈ splitOnChar '/' form, isDots segment = false

/-- The segments of a spelling are the segments of the path, split at their backslashes. -/
theorem splitOnChar_pathMatchString (x : Str) :
    splitOnChar '/' (pathMatchString x) = (splitOnChar '/' x).flatMap (splitOnChar '\\') := by
  induction x with
  | nil => rfl
  | cons c x ih =>
    have hcons : pathMatchString (c :: x) = (if c == '\\' then '/' else c) :: pathMatchString x := rfl
    obtain ⟨p, ps, hsplit⟩ := List.exists_cons_of_ne_nil (splitOnChar_ne_nil '/' x)
    obtain ⟨q, qs, hpieces⟩ := List.exists_cons_of_ne_nil (splitOnChar_ne_nil '\\' p)
    rw [hsplit, List.flatMap_cons, hpieces] at ih
    by_cases hslash : c = '/'
    · subst hslash
      rw [hcons, splitOnChar_sep, hsplit, List.flatMap_cons, List.flatMap_cons, hpieces, ← ih]
      exact splitOnChar_sep _
    · have hne : (c == '/') = false := beq_eq_false_iff_ne.mpr hslash
      rw [splitOnChar.eq_def ('/') (c :: x)]
      dsimp only
      rw [hne, if_neg Bool.false_ne_true, hsplit]
      dsimp only
      by_cases hback : c = '\\'
      · subst hback
        rw [hcons, List.flatMap_cons, splitOnChar_sep, hpieces]
        exact (splitOnChar_sep _).trans (congrArg _ ih)
      · have hne' : (c == '\\') = false := beq_eq_false_iff_ne.mpr hback
        rw [hcons, hne', if_neg Bool.false_ne_true, splitOnChar, hne, if_neg Bool.false_ne_true, ih,
          List.flatMap_cons, splitOnChar.eq_def '\\' (c :: p)]
        dsimp only
        rw [hne', if_neg Bool.false_ne_true, hpieces]
        rfl

/-- A name that has a dot segment between its backslashes. -/
def HidesDots (name : Str) : Prop := ∃ piece ∈ splitOnChar '\\' name, isDots piece = true

theorem noDots_pathMatchString_iff {text : Str} {lead : List Str} (hlead : lead = [[]] ∨ lead = [])
    (hsplit : splitOnChar '/' text = lead ++ names) :
    NoDots (pathMatchString text) ↔ ∀ name ∈ names, ¬ HidesDots name := by
  have hpieces : NoDots (pathMatchString text) ↔
      ∀ name ∈ names, ∀ piece ∈ splitOnChar '\\' name, isDots piece = false := by
    rw [NoDots, splitOnChar_pathMatchString, hsplit, List.flatMap_append]
    simp only [List.mem_append, List.mem_flatMap, or_imp, forall_and, forall_exists_index, and_imp]
    constructor
    · intro h name hname piece hpiece
      exact h.2 piece name hname hpiece
    · intro h
      refine ⟨fun piece name hname hpiece => ?_, fun piece name hname => h name hname piece⟩
      obtain rfl | rfl := hlead
      · rw [List.mem_singleton.mp hname] at hpiece
        rw [List.mem_singleton.mp hpiece]
        rfl
      · cases hname
  rw [hpieces]
  simp only [HidesDots, not_exists, not_and, Bool.not_eq_true]

theorem splitOnChar_rootedPath (h : ∀ name ∈ names, IsName name) (hne : names ≠ []) :
    splitOnChar '/' (rootedPath names) = [[]] ++ names := by
  rw [rootedPath, splitOnChar_sep,
    splitOnChar_joinOnChar hne fun name hname => (h name hname).noSlash]
  rfl

theorem noDots_rootedPath_iff (h : ∀ name ∈ names, IsName name) :
    NoDots (pathMatchString (rootedPath names)) ↔ ∀ name ∈ names, ¬ HidesDots name := by
  by_cases hne : names = []
  · subst hne
    have hroot : NoDots (pathMatchString (rootedPath [])) := by
      unfold NoDots
      decide
    exact ⟨fun _ => List.forall_mem_nil _, fun _ => hroot⟩
  · exact noDots_pathMatchString_iff (.inl rfl) (splitOnChar_rootedPath h hne)

theorem noDots_joinOnChar_iff (h : ∀ name ∈ names, IsName name) :
    NoDots (pathMatchString (joinOnChar '/' names)) ↔ ∀ name ∈ names, ¬ HidesDots name := by
  by_cases hne : names = []
  · subst hne
    have hempty : NoDots (pathMatchString (joinOnChar '/' [])) := by
      unfold NoDots
      decide
    exact ⟨fun _ => List.forall_mem_nil _, fun _ => hempty⟩
  · exact noDots_pathMatchString_iff (.inr rfl)
      (splitOnChar_joinOnChar hne fun name hname => (h name hname).noSlash)

theorem backslash_not_mem_rootedPath_iff :
    '\\' ∉ rootedPath names ↔ ∀ name ∈ names, '\\' ∉ name := by
  cases names with
  | nil => exact ⟨fun _ => List.forall_mem_nil _, fun _ => by decide⟩
  | cons name names =>
    rw [rootedPath_cons]
    simp [List.mem_flatMap]

theorem backslash_not_mem_pathMatchString (x : Str) : '\\' ∉ pathMatchString x := by
  intro h
  obtain ⟨c, -, hc⟩ := List.mem_map.mp h
  split at hc
  · cases hc
  · rename_i hne
    rw [hc] at hne
    exact hne rfl

theorem pathMatchString_flatMap (h : ∀ name ∈ base, '\\' ∉ name) :
    pathMatchString (base.flatMap ('/' :: ·)) = base.flatMap ('/' :: ·) := by
  apply pathMatchString_of_not_mem
  intro hmem
  obtain ⟨name, hname, hmem⟩ := List.mem_flatMap.mp hmem
  obtain hmem | hmem := List.mem_cons.mp hmem
  · cases hmem
  · exact h name hname hmem

end Backslashes

/-! ## Sound spellings -/

section Sound

variable {path cwd : Str}

def absoluteForm (path cwd : Str) : Str :=
  pathMatchString (absoluteNormalizedPath path (some cwd))

/-- What is said of the spellings of a path: apart from the directory itself and the leading marker
they hold no dot segments, there are relative ones exactly below the working directory, and behind
it they name the file that the absolute one names. -/
structure FormsSound (path cwd : Str) : Prop where
  noDots : ∀ form ∈ pathMatchForms path (some cwd),
    form = ".".toList ∨ form = "./".toList ∨ NoDots form ∨
      ∃ rest, form = "./".toList ++ rest ∧ NoDots rest
  relative : (∃ form ∈ pathMatchForms path (some cwd), form ≠ absoluteForm path cwd) ↔
    Under (normalizeLexically (joinCwd path (some cwd))) (normalizeLexically cwd)
  sameFile : ∀ form ∈ pathMatchForms path (some cwd), form ≠ absoluteForm path cwd →
    normalizeLexically (normalizeLexically cwd ++ '/' :: form) =
      normalizeLexically (absoluteForm path cwd)

theorem absoluteForm_eq (hcwd : isAbsolute cwd = true) (htilde : isTildePath path = false) :
    absoluteForm path cwd = pathMatchString (rootedPath (keptNames (pathPush cwd path))) := by
  rw [absoluteForm, absoluteNormalizedPath, htilde, joinCwd_some,
    normalizeLexically_of_isAbsolute (isAbsolute_pathPush hcwd path)]
  rfl

theorem under_normalized_iff (hcwd : isAbsolute cwd = true) :
    Under (normalizeLexically (joinCwd path (some cwd))) (normalizeLexically cwd) ↔
      keptNames cwd <+: keptNames (pathPush cwd path) := by
  rw [joinCwd_some, normalizeLexically_of_isAbsolute (isAbsolute_pathPush hcwd path),
    normalizeLexically_of_isAbsolute hcwd]
  exact under_iff (isName_keptNames _) (isName_keptNames _)

/-- The marked spelling below the working directory. -/
def markedForm (path cwd : Str) : Str :=
  "./".toList ++ pathMatchString
    (joinOnChar '/' ((keptNames (pathPush cwd path)).drop (keptNames cwd).length))

theorem markedForm_ne_absolute (names : List Str) :
    markedForm path cwd ≠ pathMatchString (rootedPath names) := by
  intro h
  exact absurd (List.cons.inj h).1 (by decide)

theorem markedForm_mem (hcwd : isAbsolute cwd = true) (htilde : isTildePath path = false)
    (h : keptNames cwd <+: keptNames (pathPush cwd path)) :
    markedForm path cwd ∈ pathMatchForms path (some cwd) := by
  rw [pathMatchForms_eq hcwd htilde, if_pos h]
  dsimp only
  split
  · rename_i hbelow
    rw [markedForm, hbelow]
    exact List.mem_cons_of_mem _ (List.mem_cons_of_mem _ (List.mem_cons_self ..))
  · exact List.mem_cons_of_mem _ (List.mem_cons_self ..)

theorem pathMatchForms_relative (hcwd : isAbsolute cwd = true) (htilde : isTildePath path = false) :
    (∃ form ∈ pathMatchForms path (some cwd), form ≠ absoluteForm path cwd) ↔
      Under (normalizeLexically (joinCwd path (some cwd))) (normalizeLexically cwd) := by
  rw [under_normalized_iff hcwd, absoluteForm_eq hcwd htilde]
  constructor
  · rintro ⟨form, hform, hne⟩
    by_contra h
    rw [pathMatchForms_eq hcwd htilde, if_neg h] at hform
    exact hne (List.mem_singleton.mp hform)
  · intro h
    exact ⟨markedForm path cwd, markedForm_mem hcwd htilde h, markedForm_ne_absolute _⟩

/-- The segments of a relative spelling are those of the text behind the working directory. -/
theorem significantSegments_relative (hcwd : isAbsolute cwd = true)
    (htilde : isTildePath path = false) {form : Str} (hform : form ∈ pathMatchForms path (some cwd))
    (hne : form ≠ absoluteForm path cwd) :
    significantSegments form = significantSegments (pathMatchString
      (joinOnChar '/' ((keptNames (pathPush cwd path)).drop (keptNames cwd).length))) := by
  have hmark (x : Str) : significantSegments ("./".toList ++ x) = significantSegments x :=
    significantSegments_slash ['.'] x
  rw [absoluteForm_eq hcwd htilde] at hne
  rw [pathMatchForms_eq hcwd htilde] at hform
  split at hform
  · dsimp only at hform
    split at hform
    · rename_i hbelow
      rw [hbelow]
      simp only [List.mem_cons, List.not_mem_nil, or_false] at hform
      obtain rfl | rfl | rfl := hform
      · exact absurd rfl hne
      · rfl
      · rfl
    · simp only [List.mem_cons, List.not_mem_nil, or_false] at hform
      obtain rfl | rfl | rfl := hform
      · exact absurd rfl hne
      · exact hmark _
      · rfl
  · exact absurd (List.mem_singleton.mp hform) hne

theorem isAbsolute_absoluteForm (names : List Str) :
    isAbsolute (pathMatchString (rootedPath names)) = true := rfl

theorem keptNames_absoluteForm_no_backslash (x : Str) :
    ∀ name ∈ keptNames (pathMatchString x), '\\' ∉ name := by
  intro name hname hmem
  have hsegment := (mem_collapsed hname).1
  rw [splitOnChar_pathMatchString] at hsegment
  obtain ⟨part, -, hpiece⟩ := List.mem_flatMap.mp hsegment
  exact not_mem_of_mem_splitOnChar hpiece hmem

theorem significantSegments_behind (x : Str) (base : List Str) (hbase : ∀ name ∈ base, IsName name) :
    significantSegments (rootedPath base ++ '/' :: x) = base ++ significantSegments x := by
  rw [significantSegments_slash, significantSegments_rootedPath hbase]

/-- A directory without backslashes stands in front of the relative spelling as it stands in the
absolute one. -/
theorem sameFile_of_no_backslash (hcwd : isAbsolute cwd = true) (htilde : isTildePath path = false)
    (hunder : keptNames cwd <+: keptNames (pathPush cwd path))
    (hback : ∀ name ∈ keptNames cwd, '\\' ∉ name) {form : Str}
    (hform : form ∈ pathMatchForms path (some cwd)) (hne : form ≠ absoluteForm path cwd) :
    normalizeLexically (normalizeLexically cwd ++ '/' :: form) =
      normalizeLexically (absoluteForm path cwd) := by
  have hbase := isName_keptNames cwd
  have hsegments := significantSegments_relative hcwd htilde hform hne
  rw [normalizeLexically_of_isAbsolute hcwd, absoluteForm_eq hcwd htilde]
  apply normalizeLexically_congr
  have hleft := significantSegments_behind form _ hbase
  have hright : significantSegments
      (pathMatchString (rootedPath (keptNames (pathPush cwd path)))) =
        keptNames cwd ++ significantSegments form := by
    obtain ⟨below, hsplit⟩ := hunder
    rw [← hsplit, List.drop_left] at hsegments
    rw [hsegments, ← hsplit]
    by_cases hbelow : below = []
    · have htext : '\\' ∉ rootedPath (keptNames cwd) :=
        backslash_not_mem_rootedPath_iff.2 hback
      rw [hbelow, List.append_nil, pathMatchString_of_not_mem htext,
        significantSegments_rootedPath hbase]
      exact (List.append_nil _).symm
    · have hslash (y : Str) : pathMatchString ('/' :: y) = '/' :: pathMatchString y := rfl
      rw [rootedPath_append hbelow, pathMatchString_append, pathMatchString_flatMap hback, hslash,
        significantSegments_slash, significantSegments_flatMap hbase]
  have hroot (x : Str) : walkRoot (rootedPath (keptNames cwd) ++ '/' :: x) = [.rootDir] := rfl
  rw [hroot, hleft, hright, walkRoot, isAbsolute_absoluteForm]
  rfl

theorem noDots_form (hcwd : isAbsolute cwd = true) (htilde : isTildePath path = false)
    (hhides : ∀ name ∈ keptNames (pathPush cwd path), ¬ HidesDots name) {form : Str}
    (hform : form ∈ pathMatchForms path (some cwd)) :
    form = ".".toList ∨ form = "./".toList ∨ NoDots form ∨
      ∃ rest, form = "./".toList ++ rest ∧ NoDots rest := by
  have hnames := isName_keptNames (pathPush cwd path)
  have habsolute := (noDots_rootedPath_iff hnames).mpr hhides
  have hbelow : NoDots (pathMatchString
      (joinOnChar '/' ((keptNames (pathPush cwd path)).drop (keptNames cwd).length))) :=
    (noDots_joinOnChar_iff fun name hname => hnames name (List.mem_of_mem_drop hname)).mpr
      fun name hname => hhides name (List.mem_of_mem_drop hname)
  rw [pathMatchForms_eq hcwd htilde] at hform
  split at hform
  · dsimp only at hform
    split at hform
    · simp only [List.mem_cons, List.not_mem_nil, or_false] at hform
      obtain rfl | rfl | rfl := hform
      · exact .inr (.inr (.inl habsolute))
      · exact .inl rfl
      · exact .inr (.inl rfl)
    · simp only [List.mem_cons, List.not_mem_nil, or_false] at hform
      obtain rfl | rfl | rfl := hform
      · exact .inr (.inr (.inl habsolute))
      · exact .inr (.inr (.inr ⟨_, rfl, hbelow⟩))
      · exact .inr (.inr (.inl hbelow))
  · rw [List.mem_singleton.mp hform]
    exact .inr (.inr (.inl habsolute))

theorem no_hidden_dots_of_sound (hcwd : isAbsolute cwd = true) (htilde : isTildePath path = false)
    (h : FormsSound path cwd) : ∀ name ∈ keptNames (pathPush cwd path), ¬ HidesDots name := by
  have hmem : absoluteForm path cwd ∈ pathMatchForms path (some cwd) :=
    form_mem_pathMatchForms path cwd
  rw [absoluteForm_eq hcwd htilde] at hmem
  rw [← noDots_rootedPath_iff (isName_keptNames _)]
  obtain hdot | hdot | hnodots | ⟨rest, hmark, -⟩ := h.noDots _ hmem
  · exact absurd (List.cons.inj hdot).1 (by decide)
  · exact absurd (List.cons.inj hdot).1 (by decide)
  · exact hnodots
  · exact absurd (List.cons.inj hmark).1 (by decide)

theorem no_backslash_of_sound (hcwd : isAbsolute cwd = true) (htilde : isTildePath path = false)
    (h : FormsSound path cwd) (hunder : keptNames cwd <+: keptNames (pathPush cwd path)) :
    ∀ name ∈ keptNames cwd, '\\' ∉ name := by
  have hbase := isName_keptNames cwd
  have hnames := isName_keptNames (pathPush cwd path)
  have hmem := markedForm_mem hcwd htilde hunder
  have hne : markedForm path cwd ≠ absoluteForm path cwd := by
    rw [absoluteForm_eq hcwd htilde]
    exact markedForm_ne_absolute _
  have hsame := h.sameFile _ hmem hne
  rw [normalizeLexically_of_isAbsolute hcwd, absoluteForm_eq hcwd htilde,
    normalizeLexically_of_isAbsolute (isAbsolute_absoluteForm _),
    normalizeLexically_of_isAbsolute (isAbsolute_append (isAbsolute_rootedPath _) _)] at hsame
  have hkept := rootedPath_inj (isName_keptNames _) (isName_keptNames _) hsame
  -- behind the directory nothing is popped, so its names are all kept
  have hbelow : ∀ segment ∈ significantSegments (markedForm path cwd), segment ≠ "..".toList := by
    rw [significantSegments_relative hcwd htilde hmem hne]
    intro segment hsegment hdots
    have hnodots : NoDots (pathMatchString
        (joinOnChar '/' ((keptNames (pathPush cwd path)).drop (keptNames cwd).length))) :=
      (noDots_joinOnChar_iff fun name hname => hnames name (List.mem_of_mem_drop hname)).mpr
        fun name hname =>
          no_hidden_dots_of_sound hcwd htilde h name (List.mem_of_mem_drop hname)
    have hfalse := hnodots segment (List.mem_of_mem_filter hsegment)
    rw [hdots] at hfalse
    cases hfalse
  have hleft := significantSegments_behind (markedForm path cwd) _ hbase
  have hall : ∀ name ∈ significantSegments (rootedPath (keptNames cwd) ++ '/' :: markedForm path cwd),
      name ≠ "..".toList := by
    rw [hleft]
    intro name hname
    obtain hname | hname := List.mem_append.mp hname
    · exact (hbase name hname).notParent
    · exact hbelow name hname
  rw [keptNames_eq hall, hleft] at hkept
  intro name hname
  apply keptNames_absoluteForm_no_backslash (rootedPath (keptNames (pathPush cwd path)))
  rw [← hkept]
  exact List.mem_append_left _ hname

/-- The spellings of a path are sound exactly when no name of it hides a dot segment between
backslashes and, below the working directory, that directory has no backslash. -/
theorem formsSound_iff (path cwd : Str) (hcwd : isAbsolute cwd = true)
    (htilde : isTildePath path = false) :
    FormsSound path cwd ↔
      (∀ name ∈ significantSegments (normalizeLexically (joinCwd path (some cwd))),
        ¬ HidesDots name) ∧
        (Under (normalizeLexically (joinCwd path (some cwd))) (normalizeLexically cwd) →
          '\\' ∉ normalizeLexically cwd) := by
  have hnames : significantSegments (normalizeLexically (joinCwd path (some cwd))) =
      keptNames (pathPush cwd path) := by
    rw [joinCwd_some, normalizeLexically_of_isAbsolute (isAbsolute_pathPush hcwd path),
      significantSegments_rootedPath (isName_keptNames _)]
  rw [hnames, under_normalized_iff hcwd, normalizeLexically_of_isAbsolute hcwd,
    backslash_not_mem_rootedPath_iff]
  constructor
  · intro h
    exact ⟨no_hidden_dots_of_sound hcwd htilde h, no_backslash_of_sound hcwd htilde h⟩
  · rintro ⟨hhides, hback⟩
    refine ⟨fun form hform => noDots_form hcwd htilde hhides hform,
      pathMatchForms_relative hcwd htilde, fun form hform hne => ?_⟩
    have hunder := (under_normalized_iff hcwd).mp
      ((pathMatchForms_relative hcwd htilde).mp ⟨form, hform, hne⟩)
    exact sameFile_of_no_backslash hcwd htilde hunder (hback hunder) hform hne

/-- The spellings of `src/../a` in `/w`. -/
theorem formsSound_src_a : FormsSound "src/../a".toList "/w".toList := by
  refine (formsSound_iff _ _ (by decide) (by decide)).mpr ⟨?_, fun _ => by decide⟩
  rintro name hname ⟨piece, hpiece, hdots⟩
  have hname : name ∈ ["w".toList, "a".toList] := hname
  simp only [List.mem_cons, List.not_mem_nil, or_false] at hname
  obtain rfl | rfl := hname
  · rw [List.mem_singleton.mp hpiece] at hdots
    cases hdots
  · rw [List.mem_singleton.mp hpiece] at hdots
    cases hdots

/-- In `/w` the file `..\\x` is spelled `/w/../x` and `./../x`. -/
theorem backslash_name_unsound :
    ¬ ∀ path cwd : Str, isAbsolute cwd = true → isTildePath path = false → FormsSound path cwd := by
  intro h
  have hsound := h "..\\x".toList "/w".toList (by decide) (by decide)
  exact no_hidden_dots_of_sound (by decide) (by decide) hsound "..\\x".toList (by decide)
    ⟨"..".toList, by decide, by decide⟩

end Sound

end GrokBuild.Permission
