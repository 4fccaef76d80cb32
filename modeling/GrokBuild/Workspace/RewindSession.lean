import GrokBuild.Lib.StepRun
import GrokBuild.Lib.UndoLog
import GrokBuild.Workspace.FileState

/-!
# Rewinding files

A session of prompts, file rewinds and conversation-only rewinds. The rewind point of each
surviving prompt records the change of the files from its start to the start of the next
one; folding points composes their records, so the before-images from a prompt on undo
everything since it.
-/

namespace GrokBuild.Workspace

open GrokBuild.FiniteMap GrokBuild.UndoLog GrokBuild.StepRun FileStateTracker

variable {P C : Type*}

/-! ## The points by their index -/

/-- There is a point for each prompt below `n`, under its own index. -/
structure Indexed (n : ℕ) (points : AList fun _ : ℕ => RewindPoint P C) : Prop where
  mem_iff : ∀ j, j ∈ points ↔ j < n
  promptIndex_eq : ∀ j point, points.lookup j = some point → point.promptIndex = j

def pointAt (points : AList fun _ : ℕ => RewindPoint P C) (j : ℕ) : RewindPoint P C :=
  (points.lookup j).getD (.new j)

theorem pointAt_of_lookup {points : AList fun _ : ℕ => RewindPoint P C} {j : ℕ}
    {point : RewindPoint P C} (h : points.lookup j = some point) : pointAt points j = point := by
  rw [pointAt, h, Option.getD_some]

variable {n : ℕ} {points : AList fun _ : ℕ => RewindPoint P C}

namespace Indexed

theorem lookup_eq (h : Indexed n points) {j : ℕ} (hj : j < n) :
    points.lookup j = some (pointAt points j) := by
  obtain ⟨point, hp⟩ := Option.isSome_iff_exists.mp (AList.lookup_isSome.mpr ((h.mem_iff j).mpr hj))
  rw [pointAt_of_lookup hp, hp]

theorem promptIndex_pointAt (h : Indexed n points) {j : ℕ} (hj : j < n) :
    (pointAt points j).promptIndex = j :=
  h.promptIndex_eq j _ (h.lookup_eq hj)

theorem values_perm (h : Indexed n points) :
    (points.entries.map fun entry => entry.2).Perm ((List.range n).map (pointAt points)) := by
  have hkeys : points.keys.Perm (List.range n) := by
    apply (List.perm_ext_iff_of_nodup points.keys_nodup List.nodup_range).mpr
    intro j
    rw [← AList.mem_keys, h.mem_iff, List.mem_range]
  have hvalues : (points.entries.map fun entry => entry.2) = points.keys.map (pointAt points) := by
    rw [AList.keys, List.keys, List.map_map]
    apply List.map_congr_left
    intro entry hentry
    have hlookup : points.lookup entry.1 = some entry.2 :=
      (List.mem_dlookup_iff points.nodupKeys).mpr hentry
    exact (pointAt_of_lookup hlookup).symm
  rw [hvalues]
  exact hkeys.map _

/-- The sorted points are the ones of the prompts in their order. -/
theorem sortPoints_values (h : Indexed n points) :
    sortPoints (points.entries.map fun entry => entry.2) = (List.range n).map (pointAt points) := by
  have hindex (j : ℕ) (hj : j ∈ List.range n) : (pointAt points j).promptIndex = j :=
    h.promptIndex_pointAt (List.mem_range.mp hj)
  have hsorted : ((List.range n).map (pointAt points)).Pairwise
      fun a b => decide (a.promptIndex ≤ b.promptIndex) = true := by
    rw [List.pairwise_map]
    apply (List.pairwise_lt_range (n := n)).imp_of_mem
    intro i j hi hj hij
    rw [hindex i hi, hindex j hj]
    simpa using hij.le
  have hperm := (List.mergeSort_perm (points.entries.map fun entry => entry.2)
    fun a b => decide (a.promptIndex ≤ b.promptIndex)).trans h.values_perm
  refine List.Perm.eq_of_pairwise ?_ ?_ hsorted hperm
  · -- two points of the list with one index are the same point
    intro a b ha hb hab hba
    obtain ⟨i, hi, rfl⟩ := List.mem_map.mp (hperm.mem_iff.mp ha)
    obtain ⟨j, hj, rfl⟩ := List.mem_map.mp hb
    rw [hindex i hi, hindex j hj, decide_eq_true_eq] at hab hba
    rw [le_antisymm hab hba]
  · apply List.pairwise_mergeSort
    · intro a b c hab hbc
      simp only [decide_eq_true_eq] at hab hbc ⊢
      omega
    · intro a b
      simp only [Bool.or_eq_true, decide_eq_true_eq]
      omega

end Indexed

variable [DecidableEq P]

/-- The images of the files that prompt `j` touched. -/
def befores (points : AList fun _ : ℕ => RewindPoint P C) (j : ℕ) (path : P) : Option (Option C) :=
  (pointAt points j).fileSnapshots.lookup path

def afters (points : AList fun _ : ℕ => RewindPoint P C) (j : ℕ) (path : P) : Option (Option C) :=
  (pointAt points j).afterSnapshots.lookup path

theorem lookup_foldl_union (points : List (RewindPoint P C)) (reverts : Snapshots P C) (path : P) :
    (points.foldl (fun reverts point => reverts ∪ point.fileSnapshots) reverts).lookup path =
      (reverts.lookup path).or (points.findSome? fun point => point.fileSnapshots.lookup path) := by
  induction points generalizing reverts with
  | nil => simp
  | cons point points ih =>
    rw [List.foldl_cons, ih, alist_lookup_union_eq, List.findSome?_cons, Option.or_assoc]
    cases point.fileSnapshots.lookup path <;> rfl

theorem range_eq_append {target : ℕ} (h : target ≤ n) :
    List.range n = List.range target ++ List.range' target (n - target) := by
  rw [List.range_eq_range', List.range_eq_range', show n = target + (n - target) by omega,
    ← List.range'_append_1]
  simp

/-- The files a rewind to `target` reverts, with the first image of each since. -/
theorem Indexed.lookup_filesToRevert (h : Indexed n points) {target : ℕ} (ht : target ≤ n) (path : P) :
    (filesToRevert ((List.range n).map (pointAt points)) target).lookup path =
      (List.range' target (n - target)).findSome? fun j => befores points j path := by
  have hfilter : ((List.range n).map (pointAt points)).filter
      (fun point => decide (target ≤ point.promptIndex)) =
        (List.range' target (n - target)).map (pointAt points) := by
    rw [range_eq_append ht, List.map_append, List.filter_append]
    have hbelow : ((List.range target).map (pointAt points)).filter
        (fun point => decide (target ≤ point.promptIndex)) = [] := by
      rw [List.filter_eq_nil_iff]
      intro point hp
      obtain ⟨j, hj, rfl⟩ := List.mem_map.mp hp
      have hj := List.mem_range.mp hj
      rw [h.promptIndex_pointAt (by omega), decide_eq_true_eq]
      omega
    have habove : ((List.range' target (n - target)).map (pointAt points)).filter
        (fun point => decide (target ≤ point.promptIndex)) =
          (List.range' target (n - target)).map (pointAt points) := by
      rw [List.filter_eq_self]
      intro point hp
      obtain ⟨j, hj, rfl⟩ := List.mem_map.mp hp
      obtain ⟨hle, hlt⟩ := List.mem_range'_1.mp hj
      rw [h.promptIndex_pointAt (by omega), decide_eq_true_eq]
      exact hle
    rw [hbelow, habove, List.nil_append]
  rw [filesToRevert, hfilter, lookup_foldl_union, AList.lookup_empty, Option.none_or,
    List.findSome?_map]
  rfl

/-! ## The session -/

/-- A use of a file by the agent: a read, or a write, where no content is a delete. -/
inductive Touch (P C : Type*) where
  | read (path : P)
  | write (path : P) (content : Option C)

def Touch.path : Touch P C → P
  | .read path => path
  | .write path _ => path

/-- A session between prompts: `next` is the index of the next prompt and `starts` are the
files at the start of each prompt that survives. -/
structure Session (P C : Type*) where
  tracker : FileStateTracker P C
  files : Files P C
  next : ℕ
  starts : ℕ → Files P C

namespace Session

def init (files : Files P C) : Session P C := ⟨.new, files, 0, fun _ => files⟩

/-- The file is captured, then used. -/
def useFile (state : FileStateTracker P C × Files P C) (touch : Touch P C) :
    FileStateTracker P C × Files P C :=
  (state.1.captureFileState state.2 touch.path,
    match touch with
    | .read _ => state.2
    | .write path content => Function.update state.2 path content)

def prompt (s : Session P C) (touches : List (Touch P C)) : Session P C :=
  let worked := touches.foldl useFile (s.tracker.beginPrompt s.next, s.files)
  { tracker := worked.1.endPrompt worked.2 s.next
    files := worked.2
    next := s.next + 1
    starts := Function.update s.starts s.next s.files }

/-- The conversation is rewound and the files stay. -/
def rewindConversation (s : Session P C) (target : ℕ) : Session P C :=
  { s with tracker := s.tracker.mergeAndRemoveFrom target, next := target }

/-- The files at the start of prompt `i`; the next prompt would start with the current ones. -/
def start (s : Session P C) (i : ℕ) : Files P C := if i < s.next then s.starts i else s.files

/-- The point of each prompt records the change of the files from its start to the next. -/
structure Tracked (s : Session P C) : Prop where
  lazy : s.tracker.lazySource = none
  indexed : Indexed s.next s.tracker.rewindPoints
  change : ∀ i < s.next, Change (s.start i) (s.start (i + 1))
    (befores s.tracker.rewindPoints i) (afters s.tracker.rewindPoints i)

variable {s : Session P C}

omit [DecidableEq P] in
theorem start_next : s.start s.next = s.files := by
  rw [start, if_neg (lt_irrefl _)]

theorem Tracked.getRewindPoints (h : s.Tracked) :
    s.tracker.getRewindPoints = (List.range s.next).map (pointAt s.tracker.rewindPoints) := by
  rw [FileStateTracker.getRewindPoints, ensureHistoricalLoaded, h.lazy]
  exact h.indexed.sortPoints_values

/-- The change from the start of a prompt to now, over all points since. -/
theorem Tracked.change_since (h : s.Tracked) {target : ℕ} (ht : target ≤ s.next) :
    Change (s.start target) s.files
      (fun path => (List.range' target (s.next - target)).findSome?
        fun j => befores s.tracker.rewindPoints j path)
      (fun path => (List.range' target (s.next - target)).reverse.findSome?
        fun j => afters s.tracker.rewindPoints j path) := by
  have hspan := Change.span (S := s.start) (m := target) (n := s.next - target)
    fun i _ hlt => h.change i (by omega)
  rw [show target + (s.next - target) = s.next by omega, start_next] at hspan
  exact hspan

/-- A session that keeps the points below `next` of a tracked one, and the starts up to it,
is tracked. -/
theorem Tracked.of_agree {s' : Session P C} (h : s.Tracked) (hnext : s'.next ≤ s.next)
    (hlazy : s'.tracker.lazySource = none)
    (hpoints : ∀ j, s'.tracker.rewindPoints.lookup j =
      if j < s'.next then s.tracker.rewindPoints.lookup j else none)
    (hstart : ∀ i ≤ s'.next, s'.start i = s.start i) : s'.Tracked := by
  have hat : ∀ j < s'.next, pointAt s'.tracker.rewindPoints j = pointAt s.tracker.rewindPoints j := by
    intro j hj
    rw [pointAt, pointAt, hpoints, if_pos hj]
  refine ⟨hlazy, ⟨?_, ?_⟩, ?_⟩
  · intro j
    rw [← AList.lookup_isSome, hpoints]
    by_cases hj : j < s'.next
    · simp only [hj, if_true, AList.lookup_isSome, h.indexed.mem_iff, iff_true]
      omega
    · simp [hj]
  · intro j point hp
    rw [hpoints] at hp
    split at hp
    · exact h.indexed.promptIndex_eq j point hp
    · cases hp
  · intro i hi
    have hchange := h.change i (by omega)
    rw [hstart i hi.le, hstart (i + 1) hi]
    unfold befores afters at hchange ⊢
    rw [hat i hi]
    exact hchange

theorem lookup_truncateFrom (h : s.Tracked) (target j : ℕ) :
    (s.tracker.truncateFrom target).rewindPoints.lookup j =
      if j < target then s.tracker.rewindPoints.lookup j else none := by
  rw [truncateFrom, ensureHistoricalLoaded, h.lazy]
  dsimp only
  rw [lookup_retainKeys]
  simp

/-! ## Prompts -/

omit [DecidableEq P] in
theorem lookup_modifyPoint (t : FileStateTracker P C) (promptIndex j : ℕ)
    (f : RewindPoint P C → RewindPoint P C) :
    (t.modifyPoint promptIndex f).rewindPoints.lookup j =
      if j = promptIndex then (t.rewindPoints.lookup promptIndex).map f
      else t.rewindPoints.lookup j := by
  unfold modifyPoint
  split
  · rename_i hnone
    split
    · rename_i hj
      rw [hj, hnone, Option.map_none]
    · rfl
  · rename_i point hsome
    rw [alist_lookup_insert_eq, hsome, Option.map_some]

omit [DecidableEq P] in
theorem modifyPoint_lazySource (t : FileStateTracker P C) (promptIndex : ℕ)
    (f : RewindPoint P C → RewindPoint P C) :
    (t.modifyPoint promptIndex f).lazySource = t.lazySource ∧
      (t.modifyPoint promptIndex f).currentPromptIndex = t.currentPromptIndex := by
  unfold modifyPoint
  split <;> exact ⟨rfl, rfl⟩

/-- While prompt `n` runs: its point has the files as they were at its start for every file
that has been used, and every other file is as it was. -/
structure Prompting (base : AList fun _ : ℕ => RewindPoint P C) (n : ℕ) (started : Files P C)
    (t : FileStateTracker P C) (files : Files P C) : Prop where
  lazy : t.lazySource = none
  current : t.currentPromptIndex = some n
  others : ∀ j, j ≠ n → t.rewindPoints.lookup j = base.lookup j
  point : ∃ point, t.rewindPoints.lookup n = some point ∧ point.promptIndex = n ∧
    point.afterSnapshots = ∅ ∧
    (∀ path content, point.fileSnapshots.lookup path = some content → started path = content) ∧
    ∀ path, point.fileSnapshots.lookup path = none → started path = files path

variable {base : AList fun _ : ℕ => RewindPoint P C} {started files : Files P C}
  {t : FileStateTracker P C}

/-- The first capture of a file finds it as it was at the start. -/
theorem Prompting.useFile (h : Prompting base n started t files) (touch : Touch P C) :
    Prompting base n started (Session.useFile (t, files) touch).1
      (Session.useFile (t, files) touch).2 := by
  obtain ⟨point, hpoint, hindex, hempty, hsome, hnone⟩ := h.point
  have hcapture : (Session.useFile (t, files) touch).1 =
      t.modifyPoint n fun point => point.addSnapshot touch.path (files touch.path) := by
    simp [Session.useFile, captureFileState, h.current]
  -- a use changes no file but its own, which is captured by now
  have hfiles : ∀ path, path ≠ touch.path →
      (Session.useFile (t, files) touch).2 path = files path := by
    intro path hpath
    cases touch with
    | read used => rfl
    | write used content => exact Function.update_of_ne hpath content files
  have hlookup : ∀ path, (point.addSnapshot touch.path (files touch.path)).fileSnapshots.lookup path =
      if path = touch.path then (point.fileSnapshots.lookup path).or (some (files path))
      else point.fileSnapshots.lookup path := by
    intro path
    unfold RewindPoint.addSnapshot
    split
    · rename_i hmem
      split
      · rename_i hpath
        obtain ⟨content, hc⟩ := Option.isSome_iff_exists.mp (AList.lookup_isSome.mpr hmem)
        rw [hpath, hc, Option.some_or]
      · rfl
    · rename_i hmem
      rw [alist_lookup_insert_eq]
      split
      · rename_i hpath
        rw [hpath, AList.lookup_eq_none.mpr hmem, Option.none_or]
      · rfl
  have hfields : (point.addSnapshot touch.path (files touch.path)).promptIndex = point.promptIndex ∧
      (point.addSnapshot touch.path (files touch.path)).afterSnapshots = point.afterSnapshots := by
    unfold RewindPoint.addSnapshot
    split <;> exact ⟨rfl, rfl⟩
  rw [hcapture]
  refine ⟨(modifyPoint_lazySource t n _).1.trans h.lazy,
    (modifyPoint_lazySource t n _).2.trans h.current, ?_, ?_⟩
  · intro j hj
    rw [lookup_modifyPoint, if_neg hj, h.others j hj]
  · refine ⟨point.addSnapshot touch.path (files touch.path), ?_, hfields.1.trans hindex,
      hfields.2.trans hempty, ?_, ?_⟩
    · rw [lookup_modifyPoint, if_pos rfl, hpoint, Option.map_some]
    · intro path content hc
      rw [hlookup] at hc
      split at hc
      · cases hold : point.fileSnapshots.lookup path with
        | some old =>
          rw [hold, Option.some_or] at hc
          exact hsome path content (hold.trans hc)
        | none =>
          rw [hold, Option.none_or] at hc
          rw [hnone path hold]
          exact Option.some.inj hc
      · exact hsome path content hc
    · intro path hc
      rw [hlookup] at hc
      split at hc
      · cases (Option.or_eq_none_iff.mp hc).2
      · rename_i hpath
        rw [hfiles path hpath]
        exact hnone path hc

theorem Prompting.useFiles (h : Prompting base n started t files) (touches : List (Touch P C)) :
    Prompting base n started (touches.foldl Session.useFile (t, files)).1
      (touches.foldl Session.useFile (t, files)).2 := by
  induction touches generalizing t files with
  | nil => exact h
  | cons touch touches ih => exact ih (h.useFile touch)

/-- Setting the after-snapshots of a list of paths. -/
theorem lookup_foldl_setAfter (paths : List P) (files : Files P C) {t : FileStateTracker P C}
    {point : RewindPoint P C} (hpoint : t.rewindPoints.lookup n = some point) :
    (paths.foldl (fun t path => t.modifyPoint n fun point =>
        point.setAfterSnapshot path (files path)) t).lazySource = t.lazySource ∧
      (∀ j, j ≠ n → (paths.foldl (fun t path => t.modifyPoint n fun point =>
        point.setAfterSnapshot path (files path)) t).rewindPoints.lookup j =
          t.rewindPoints.lookup j) ∧
      ∃ point', (paths.foldl (fun t path => t.modifyPoint n fun point =>
          point.setAfterSnapshot path (files path)) t).rewindPoints.lookup n = some point' ∧
        point'.promptIndex = point.promptIndex ∧ point'.fileSnapshots = point.fileSnapshots ∧
        ∀ path, point'.afterSnapshots.lookup path =
          if path ∈ paths then some (files path) else point.afterSnapshots.lookup path := by
  induction paths generalizing t point with
  | nil => exact ⟨rfl, fun _ _ => rfl, point, hpoint, rfl, rfl, by simp⟩
  | cons first paths ih =>
    have hstep : (t.modifyPoint n fun point => point.setAfterSnapshot first (files first)
        ).rewindPoints.lookup n = some (point.setAfterSnapshot first (files first)) := by
      rw [lookup_modifyPoint, if_pos rfl, hpoint, Option.map_some]
    obtain ⟨hlazy, hothers, point', hpoint', hindex, hbefore, hafter⟩ := ih hstep
    refine ⟨hlazy.trans (modifyPoint_lazySource t n _).1, ?_, point', hpoint', hindex, hbefore, ?_⟩
    · intro j hj
      rw [List.foldl_cons, hothers j hj, lookup_modifyPoint, if_neg hj]
    · intro path
      rw [hafter, RewindPoint.setAfterSnapshot, alist_lookup_insert_eq]
      by_cases hp : path = first
      · simp [hp]
      · simp [hp]

theorem Tracked.prompting (h : s.Tracked) :
    Prompting s.tracker.rewindPoints s.next s.files (s.tracker.beginPrompt s.next) s.files := by
  have hnew : s.next ∉ s.tracker.rewindPoints := by
    rw [h.indexed.mem_iff]
    exact lt_irrefl _
  have hpoints : (s.tracker.beginPrompt s.next).rewindPoints =
      s.tracker.rewindPoints.insert s.next (.new s.next) := by
    rw [beginPrompt, if_neg hnew]
  refine ⟨h.lazy, rfl, ?_, .new s.next, ?_, rfl, rfl, ?_, fun _ _ => rfl⟩
  · intro j hj
    rw [hpoints, alist_lookup_insert_eq, if_neg hj]
  · rw [hpoints, AList.lookup_insert]
  · intro path content hc
    simp [RewindPoint.new] at hc

/-- A prompt adds the point of its own change. -/
theorem Tracked.prompt (h : s.Tracked) (touches : List (Touch P C)) : (s.prompt touches).Tracked := by
  have hprompt := h.prompting.useFiles touches
  set worked := touches.foldl Session.useFile (s.tracker.beginPrompt s.next, s.files) with hworked
  obtain ⟨point, hpoint, hindex, hempty, hsome, hnone⟩ := hprompt.point
  have hend : (s.prompt touches).tracker = worked.1.endPrompt worked.2 s.next := rfl
  obtain ⟨hlazy, hothers, point', hpoint', hindex', hbefore, hafter⟩ :=
    lookup_foldl_setAfter (t := { worked.1 with currentPromptIndex := none })
      point.fileSnapshots.keys worked.2 hpoint
  have hpaths : ((worked.1.rewindPoints.lookup s.next).map
      fun point => point.fileSnapshots.keys).getD [] = point.fileSnapshots.keys := by
    rw [hpoint, Option.map_some, Option.getD_some]
  rw [endPrompt, hpaths] at hend
  rw [← hend] at hlazy hothers hpoint'
  have hold : ∀ j, j ≠ s.next → (s.prompt touches).tracker.rewindPoints.lookup j =
      s.tracker.rewindPoints.lookup j := fun j hj => (hothers j hj).trans (hprompt.others j hj)
  have hstart : ∀ i, (s.prompt touches).start i =
      if i ≤ s.next then s.start i else worked.2 := by
    intro i
    change (if i < s.next + 1 then Function.update s.starts s.next s.files i else worked.2) = _
    by_cases hi : i ≤ s.next
    · rw [if_pos (by omega), if_pos hi]
      rcases Nat.lt_or_eq_of_le hi with hlt | rfl
      · rw [Function.update_of_ne (by omega), start, if_pos hlt]
      · rw [Function.update_self, start_next]
    · rw [if_neg (by omega), if_neg hi]
  refine ⟨hlazy.trans hprompt.lazy, ⟨?_, ?_⟩, ?_⟩
  · intro j
    change j ∈ (s.prompt touches).tracker.rewindPoints ↔ j < s.next + 1
    by_cases hj : j = s.next
    · rw [hj, ← AList.lookup_isSome, hpoint']
      simp
    · rw [← AList.lookup_isSome, hold j hj, AList.lookup_isSome, h.indexed.mem_iff]
      omega
  · intro j p hp
    by_cases hj : j = s.next
    · rw [hj, hpoint'] at hp
      rw [← Option.some.inj hp, hindex', hindex, hj]
    · rw [hold j hj] at hp
      exact h.indexed.promptIndex_eq j p hp
  · intro i hi
    change i < s.next + 1 at hi
    rw [hstart, hstart, if_pos (by omega)]
    by_cases hlt : i < s.next
    · -- the points of the earlier prompts are the same
      rw [if_pos (by omega)]
      have hat : pointAt (s.prompt touches).tracker.rewindPoints i =
          pointAt s.tracker.rewindPoints i := by
        rw [pointAt, pointAt, hold i (by omega)]
      have hchange := h.change i hlt
      unfold befores afters at hchange ⊢
      rw [hat]
      exact hchange
    · obtain rfl : i = s.next := by omega
      rw [if_neg (by omega), start_next]
      have hat := pointAt_of_lookup hpoint'
      unfold befores afters
      rw [hat, hbefore]
      refine ⟨hsome, ?_, hnone, ?_⟩
      · intro path content hc
        rw [hafter, hempty, AList.lookup_empty] at hc
        split at hc
        · exact Option.some.inj hc
        · cases hc
      · intro path
        rw [hafter, hempty, AList.lookup_empty, AList.lookup_eq_none, AList.mem_keys]
        simp

/-! ## Conversation-only rewinds -/

omit [DecidableEq P] in
theorem dedupPoints_eq_self {l : List (RewindPoint P C)}
    (h : l.Pairwise fun a b => a.promptIndex ≠ b.promptIndex) : dedupPoints l = l := by
  induction l with
  | nil => rfl
  | cons point l ih =>
    obtain ⟨hfirst, hrest⟩ := List.pairwise_cons.mp h
    rw [dedupPoints, ih hrest]
    cases l with
    | nil => rfl
    | cons next l => exact if_neg (Ne.symm (hfirst next List.mem_cons_self))

omit [DecidableEq P] in
theorem modifyFirst_append {p : RewindPoint P C → Bool} {f : RewindPoint P C → RewindPoint P C}
    {l : List (RewindPoint P C)} (h : ∀ point ∈ l, p point = false) {point : RewindPoint P C}
    (hp : p point = true) : modifyFirst p f (l ++ [point]) = l ++ [f point] := by
  induction l with
  | nil => simp [modifyFirst, hp]
  | cons first l ih =>
    rw [List.cons_append, modifyFirst, h first List.mem_cons_self,
      ih fun q hq => h q (List.mem_cons_of_mem _ hq)]
    rfl

theorem takeWhile_eq_nil {β : Type*} {p : β → Bool} {l : List β} (h : ∀ x ∈ l, ¬p x = true) :
    l.takeWhile p = [] := by
  cases l with
  | nil => rfl
  | cons x l => exact List.takeWhile_cons_of_neg (h x List.mem_cons_self)

theorem dropWhile_eq_self {β : Type*} {p : β → Bool} {l : List β} (h : ∀ x ∈ l, ¬p x = true) :
    l.dropWhile p = l := by
  cases l with
  | nil => rfl
  | cons x l => exact List.dropWhile_cons_of_neg (h x List.mem_cons_self)

/-- The images of points folded into one. -/
theorem foldl_fold (l : List (RewindPoint P C)) (previous : RewindPoint P C) :
    (l.foldl .fold previous).promptIndex = previous.promptIndex ∧
      ∀ path, (l.foldl .fold previous).fileSnapshots.lookup path =
          (previous.fileSnapshots.lookup path).or
            (l.findSome? fun point => point.fileSnapshots.lookup path) ∧
        (l.foldl .fold previous).afterSnapshots.lookup path =
          (l.reverse.findSome? fun point => point.afterSnapshots.lookup path).or
            (previous.afterSnapshots.lookup path) := by
  induction l generalizing previous with
  | nil => exact ⟨rfl, fun path => by simp⟩
  | cons point l ih =>
    obtain ⟨hindex, hlookup⟩ := ih (previous.fold point)
    refine ⟨hindex, fun path => ?_⟩
    obtain ⟨hbefore, hafter⟩ := hlookup path
    rw [List.foldl_cons, hbefore, hafter, RewindPoint.fold, alist_lookup_union_eq,
      alist_lookup_union_eq, Option.or_assoc]
    constructor
    · rw [List.findSome?_cons]
      cases point.fileSnapshots.lookup path <;> rfl
    · rw [List.reverse_cons, List.findSome?_append, List.findSome?_singleton, Option.or_assoc]

/-- The points after a merge: those below the target, the last with all later ones folded
into it. -/
theorem mergeRewindPointsFrom_indexed (h : Indexed n points) {target : ℕ} (hpos : 0 < target)
    (ht : target ≤ n) :
    mergeRewindPointsFrom (points.entries.map fun entry => entry.2) target =
      (List.range (target - 1)).map (pointAt points) ++
        [((List.range' target (n - target)).map (pointAt points)).foldl .fold
          (pointAt points (target - 1))] := by
  have hindex (j : ℕ) (hj : j < n) := h.promptIndex_pointAt hj
  have hdedup : dedupPoints ((List.range n).map (pointAt points)) =
      (List.range n).map (pointAt points) := by
    apply dedupPoints_eq_self
    rw [List.pairwise_map]
    apply (List.pairwise_lt_range (n := n)).imp_of_mem
    intro i j hi hj hij
    rw [hindex i (List.mem_range.mp hi), hindex j (List.mem_range.mp hj)]
    exact hij.ne
  have hbelow : ∀ point ∈ (List.range target).map (pointAt points),
      decide (point.promptIndex < target) = true := by
    intro point hp
    obtain ⟨j, hj, rfl⟩ := List.mem_map.mp hp
    have hj := List.mem_range.mp hj
    rw [hindex j (by omega), decide_eq_true_eq]
    exact hj
  have habove : ∀ point ∈ (List.range' target (n - target)).map (pointAt points),
      ¬decide (point.promptIndex < target) = true := by
    intro point hp
    obtain ⟨j, hj, rfl⟩ := List.mem_map.mp hp
    obtain ⟨hle, hlt⟩ := List.mem_range'_1.mp hj
    rw [hindex j (by omega), decide_eq_true_eq]
    omega
  rw [mergeRewindPointsFrom, if_neg (by omega), h.sortPoints_values, hdedup,
    range_eq_append ht, List.map_append]
  dsimp only
  have hlast : List.range target = List.range (target - 1) ++ [target - 1] := by
    conv_lhs => rw [show target = target - 1 + 1 by omega, List.range_succ]
  rw [List.takeWhile_append_of_pos hbelow, List.dropWhile_append_of_pos hbelow,
    takeWhile_eq_nil habove, dropWhile_eq_self habove, List.append_nil, hlast, List.map_append,
    List.map_singleton]
  apply modifyFirst_append
  · intro point hp
    obtain ⟨j, hj, rfl⟩ := List.mem_map.mp hp
    have hj := List.mem_range.mp hj
    rw [hindex j (by omega), decide_eq_false_iff_not]
    omega
  · rw [hindex (target - 1) (by omega), decide_eq_true_eq]

omit [DecidableEq P] in
/-- Rebuilding the map from points under their own indexes. -/
theorem lookup_foldl_insert {m : ℕ} {g : ℕ → RewindPoint P C}
    (hg : ∀ j < m, (g j).promptIndex = j) (j : ℕ) :
    (((List.range m).map g).foldl (fun points point => points.insert point.promptIndex point)
      (∅ : AList fun _ : ℕ => RewindPoint P C)).lookup j = if j < m then some (g j) else none := by
  induction m with
  | zero => simp
  | succ m ih =>
    rw [List.range_succ, List.map_append, List.foldl_append, List.map_singleton, List.foldl_cons,
      List.foldl_nil, alist_lookup_insert_eq, hg m (Nat.lt_succ_self m),
      ih fun j hj => hg j (Nat.lt_succ_of_lt hj)]
    by_cases hj : j = m
    · rw [if_pos hj, if_pos (by omega), hj]
    · rw [if_neg hj]
      by_cases hlt : j < m
      · rw [if_pos hlt, if_pos (by omega)]
      · rw [if_neg hlt, if_neg (by omega)]

/-- A conversation-only rewind composes the changes from the last prompt that stays to now
into the point of that prompt. -/
theorem Tracked.rewindConversation (h : s.Tracked) {target : ℕ} (ht : target ≤ s.next) :
    (s.rewindConversation target).Tracked := by
  have hnext : (s.rewindConversation target).next = target := rfl
  have htracker : (s.rewindConversation target).tracker.rewindPoints =
      (mergeRewindPointsFrom (s.tracker.rewindPoints.entries.map fun entry => entry.2) target).foldl
        (fun points point => points.insert point.promptIndex point) ∅ := by
    rw [Session.rewindConversation, mergeAndRemoveFrom, ensureHistoricalLoaded, h.lazy]
    rfl
  have hlazy : (s.rewindConversation target).tracker.lazySource = none := by
    rw [Session.rewindConversation, mergeAndRemoveFrom, ensureHistoricalLoaded, h.lazy]
    exact h.lazy
  rcases Nat.eq_zero_or_pos target with rfl | hpos
  · rw [mergeRewindPointsFrom, if_pos rfl, List.foldl_nil] at htracker
    refine ⟨hlazy, ⟨?_, ?_⟩, ?_⟩
    · intro j
      rw [htracker, hnext]
      simp
    · intro j point hp
      rw [htracker, AList.lookup_empty] at hp
      cases hp
    · intro i hi
      rw [hnext] at hi
      omega
  · set folded := ((List.range' target (s.next - target)).map
      (pointAt s.tracker.rewindPoints)).foldl .fold (pointAt s.tracker.rewindPoints (target - 1))
      with hfolded
    obtain ⟨hfold_index, hfold⟩ := foldl_fold ((List.range' target (s.next - target)).map
      (pointAt s.tracker.rewindPoints)) (pointAt s.tracker.rewindPoints (target - 1))
    rw [← hfolded] at hfold_index hfold
    -- the kept points, as a function of their index
    set kept := fun j => if j = target - 1 then folded else pointAt s.tracker.rewindPoints j
      with hkept
    have hkept_index : ∀ j < target, (kept j).promptIndex = j := by
      intro j hj
      rw [hkept]
      dsimp only
      split
      · rename_i hlast
        rw [hfold_index, h.indexed.promptIndex_pointAt (by omega), hlast]
      · exact h.indexed.promptIndex_pointAt (by omega)
    have hlist : mergeRewindPointsFrom
        (s.tracker.rewindPoints.entries.map fun entry => entry.2) target =
          (List.range target).map kept := by
      have hlast : List.range target = List.range (target - 1) ++ [target - 1] := by
        conv_lhs => rw [show target = target - 1 + 1 by omega, List.range_succ]
      have hfirst : (List.range (target - 1)).map (pointAt s.tracker.rewindPoints) =
          (List.range (target - 1)).map kept := by
        apply List.map_congr_left
        intro j hj
        exact (if_neg (List.mem_range.mp hj).ne).symm
      have hfolded_kept : kept (target - 1) = folded := if_pos rfl
      rw [mergeRewindPointsFrom_indexed h.indexed hpos ht, ← hfolded, hlast, List.map_append,
        List.map_singleton, hfirst, hfolded_kept]
    have hlookup : ∀ j, (s.rewindConversation target).tracker.rewindPoints.lookup j =
        if j < target then some (kept j) else none := by
      intro j
      rw [htracker, hlist, lookup_foldl_insert hkept_index]
    have hat : ∀ j < target,
        pointAt (s.rewindConversation target).tracker.rewindPoints j = kept j := by
      intro j hj
      exact pointAt_of_lookup (by rw [hlookup, if_pos hj])
    have hstart : ∀ i < target, (s.rewindConversation target).start i = s.start i := by
      intro i hi
      rw [start, start, hnext, if_pos hi, if_pos (by omega)]
      rfl
    refine ⟨hlazy, ⟨?_, ?_⟩, ?_⟩
    · intro j
      rw [← AList.lookup_isSome, hlookup, hnext]
      split <;> simp_all
    · intro j point hp
      rw [hlookup] at hp
      split at hp
      · rename_i hj
        rw [← Option.some.inj hp]
        exact hkept_index j hj
      · cases hp
    · intro i hi
      rw [hnext] at hi
      unfold befores afters
      rw [hat i hi, hkept, hstart i hi]
      dsimp only
      split
      · rename_i hlast
        have hfiles : (s.rewindConversation target).start (i + 1) = s.files := by
          rw [start, hnext, if_neg (by omega)]
          rfl
        rw [hfiles, hlast]
        have hspan : List.range' (target - 1) (s.next - (target - 1)) =
            (target - 1) :: List.range' target (s.next - target) := by
          rw [show s.next - (target - 1) = s.next - target + 1 by omega, List.range'_succ,
            Nat.sub_add_cancel hpos]
        have hsince := h.change_since (show target - 1 ≤ s.next by omega)
        rw [hspan] at hsince
        convert hsince using 2 with path path
        · rw [(hfold path).1, List.findSome?_cons, List.findSome?_map]
          cases hb : befores s.tracker.rewindPoints (target - 1) path with
          | none =>
            rw [befores] at hb
            rw [hb, Option.none_or]
            rfl
          | some content =>
            rw [befores] at hb
            rw [hb, Option.some_or]
        · rw [(hfold path).2, List.reverse_cons, List.findSome?_append, List.findSome?_singleton,
            ← List.map_reverse, List.findSome?_map]
          rfl
      · rename_i hlast
        rw [hstart (i + 1) (by omega)]
        exact h.change i (by omega)

end Session

end GrokBuild.Workspace
