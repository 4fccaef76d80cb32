import GrokBuild.ApplyPatch.Tool
import Mathlib.Data.List.Basic

/-!
# The sequential meaning of a patch

A patch of several hunks means the hunks one after another, each on the files that the ones
before it left. The tool computes every change from the files as they were at the start;
the condition below says exactly when that comes to the same.
-/

namespace GrokBuild.ApplyPatch

open Text

theorem asBytes_injective : Function.Injective asBytes := by
  intro s t h
  have henc : s.utf8Encode = t.utf8Encode := congrArg List.toByteArray h
  have hdec := congrArg ByteArray.utf8Decode? henc
  rw [List.utf8Decode?_utf8Encode, List.utf8Decode?_utf8Encode] at hdec
  simpa using hdec

section Sequential

variable {Loc : Type*} (os : Platform Loc) (cwd : PathBuf) [DecidableEq Loc]

/-- The run changed files as asked, or there was nothing to do. -/
def PatchRun.succeeded {Loc : Type*} (r : PatchRun Loc ApplyPatchOutput) : Bool :=
  match r.output with
  | .ok (.success _ _) => true
  | .ok (.emptyPatch _) => true
  | _ => false

/-- One hunk on its own. -/
def applyOne (fs : FileSystem Loc) (h : Hunk) : Option (FileSystem Loc) :=
  if (run os cwd fs [h]).succeeded then some (run os cwd fs [h]).fs else none

/-- The hunks one after another. -/
def applySequentially (fs : FileSystem Loc) (hunks : List Hunk) : Option (FileSystem Loc) :=
  hunks.foldlM (applyOne os cwd) fs

/-- The files a hunk writes or removes. -/
def touched : Hunk → List Loc
  | .addFile path _ => [os.locate (cwd.join path)]
  | .deleteFile path => [os.locate (cwd.join path)]
  | .updateFile path none _ => [os.locate (cwd.join path)]
  | .updateFile path (some dest) _ => [os.locate (cwd.join dest), os.locate (cwd.join path)]

/-- What an update makes of a file of `fs`. -/
def updatedText (fs : FileSystem Loc) (path : PathBuf) (chunks : List UpdateFileChunk) :
    Except Str Str := do
  let text ← readFileAsString os fs (cwd.join path)
  deriveNewContents text (cwd.join path) chunks

/-- A hunk can be computed from the original files: the file it reads was there. An update
comes to the same text there as on the files left by the hunks before it, unless its result
is overwritten or removed, by a later hunk or by a move onto itself. -/
def HunkAgrees (original current : FileSystem Loc) (h : Hunk) (later : List Hunk) : Prop :=
  match h with
  | .addFile _ _ => True
  | .deleteFile path => original (os.locate (cwd.join path)) ≠ none
  | .updateFile path movePath chunks =>
    ∃ text, updatedText os cwd original path chunks = .ok text ∧
      (updatedText os cwd current path chunks = .ok text ∨
        (movePath ≠ none ∧
          os.locate (cwd.join (movePath.getD path)) = os.locate (cwd.join path)) ∨
        os.locate (cwd.join (movePath.getD path)) ∈ later.flatMap (touched os cwd))

/-- Every hunk agrees, where it stands. -/
def PatchAgrees (original start : FileSystem Loc) (hunks : List Hunk) : Prop :=
  ∀ before h later current, hunks = before ++ h :: later →
    applySequentially os cwd start before = some current →
    HunkAgrees os cwd original current h later

variable {os cwd}

theorem patchAgrees_nil (original start : FileSystem Loc) :
    PatchAgrees os cwd original start [] := by
  intro before h later current hs
  simp at hs

theorem patchAgrees_cons {original start next : FileSystem Loc} {h : Hunk} {hunks : List Hunk}
    (hone : applyOne os cwd start h = some next) :
    PatchAgrees os cwd original start (h :: hunks) ↔
      HunkAgrees os cwd original start h hunks ∧ PatchAgrees os cwd original next hunks := by
  constructor
  · intro ha
    refine ⟨ha [] h hunks start rfl rfl, ?_⟩
    intro before h' later current hs hseq
    apply ha (h :: before) h' later current (by rw [hs]; rfl)
    simpa [applySequentially, hone] using hseq
  · rintro ⟨hh, ha⟩ before h' later current hs hseq
    cases before with
    | nil =>
      simp only [List.nil_append, List.cons.injEq] at hs
      simp only [applySequentially, List.foldlM_nil, Option.pure_def, Option.some.injEq] at hseq
      rw [← hseq, ← hs.1, ← hs.2]
      exact hh
    | cons b before =>
      simp only [List.cons_append, List.cons.injEq] at hs
      apply ha before h' later current hs.2
      rw [← hs.1] at hseq
      simpa [applySequentially, hone] using hseq

/-! ## One hunk -/

theorem applyOne_eq_some_iff {fs fs' : FileSystem Loc} {h : Hunk} :
    applyOne os cwd fs h = some fs' ↔
      ∃ change, computeChange os cwd fs h = .ok change ∧
        writeChange os fs change = (fs', .ok ()) := by
  unfold applyOne run computeAllChanges
  simp only [List.isEmpty_cons, Bool.false_eq_true, if_false, List.mapM_cons, List.mapM_nil]
  cases hc : computeChange os cwd fs h with
  | error e => simp [bind, Except.bind, PatchRun.succeeded]
  | ok change =>
    rcases hw : writeChange os fs change with ⟨fs'', e | u⟩
    · simp [bind, pure, Except.bind, Except.pure, PatchRun.succeeded, writeChanges, hw, Except.map]
    · simp [bind, pure, Except.bind, Except.pure, PatchRun.succeeded, writeChanges, hw, Except.map]

omit [DecidableEq Loc] in
theorem readFileAsString_eq_ok {fs : FileSystem Loc} {path : PathBuf} {text : Str}
    (h : readFileAsString os fs path = .ok text) : fs (os.locate path) ≠ none := by
  unfold readFileAsString at h
  intro hn
  rw [hn] at h
  simp at h

omit [DecidableEq Loc] in
theorem computeChange_delete_iff {fs : FileSystem Loc} {path : PathBuf} {change : FileChange} :
    computeChange os cwd fs (.deleteFile path) = .ok change ↔
      ∃ text, readFileAsString os fs (cwd.join path) = .ok text ∧
        change = .delete (cwd.join path) text := by
  unfold computeChange
  cases hr : readFileAsString os fs (cwd.join path) with
  | error e => simp [bind, Except.bind, Except.mapError, hr]
  | ok text => simp [bind, Except.bind, Except.mapError, hr, eq_comm]

omit [DecidableEq Loc] in
/-- An update computes a change exactly when it makes something of the file. -/
theorem computeChange_update_iff {fs : FileSystem Loc} {path : PathBuf}
    {movePath : Option PathBuf} {chunks : List UpdateFileChunk} {change : FileChange} :
    computeChange os cwd fs (.updateFile path movePath chunks) = .ok change ↔
      ∃ original text, updatedText os cwd fs path chunks = .ok text ∧
        readFileAsString os fs (cwd.join path) = .ok original ∧
        change = match movePath with
          | some dest => .move (cwd.join path) (cwd.join dest) original text
          | none => .update (cwd.join path) original text := by
  unfold computeChange updatedText
  cases hr : readFileAsString os fs (cwd.join path) with
  | error e => simp [bind, Except.bind, Except.mapError, hr]
  | ok original =>
    cases hd : deriveNewContents original (cwd.join path) chunks with
    | error e => simp [bind, Except.bind, Except.mapError, hr, hd]
    | ok text =>
      cases movePath with
      | none => simp [bind, Except.bind, Except.mapError, hr, hd, eq_comm]
      | some dest => simp [bind, Except.bind, Except.mapError, hr, hd, eq_comm]

theorem deleteFile_eq_ok_iff {fs fs' : FileSystem Loc} {path : PathBuf} :
    deleteFile os fs path = (fs', .ok ()) ↔
      fs (os.locate path) ≠ none ∧ fs' = Function.update fs (os.locate path) none := by
  unfold deleteFile
  cases hl : fs (os.locate path) with
  | none => simp
  | some bytes => simp [eq_comm]

/-- Two file systems have the same files, whatever is in them. -/
def SameFiles (t c : FileSystem Loc) : Prop := ∀ l, t l = none ↔ c l = none

omit [DecidableEq Loc] in
theorem SameFiles.update [DecidableEq Loc] {t c : FileSystem Loc} (h : SameFiles t c) (l : Loc)
    {a b : Option (List UInt8)} (hab : a = none ↔ b = none) :
    SameFiles (Function.update t l a) (Function.update c l b) := by
  intro l'
  by_cases hl : l' = l
  · subst hl
    simpa using hab
  · simpa [hl] using h l'

omit [DecidableEq Loc] in
theorem hunkAgrees_update_iff {original current : FileSystem Loc} {path : PathBuf}
    {chunks : List UpdateFileChunk} {text text' : Str} (movePath : Option PathBuf)
    (ht : updatedText os cwd original path chunks = .ok text)
    (ht' : updatedText os cwd current path chunks = .ok text') (later : List Hunk) :
    HunkAgrees os cwd original current (.updateFile path movePath chunks) later ↔
      asBytes text = asBytes text' ∨
        (movePath ≠ none ∧
          os.locate (cwd.join (movePath.getD path)) = os.locate (cwd.join path)) ∨
        os.locate (cwd.join (movePath.getD path)) ∈ later.flatMap (touched os cwd) := by
  unfold HunkAgrees
  simp only [ht, ht', Except.ok.injEq, (asBytes_injective).eq_iff]
  constructor
  · rintro ⟨_, rfl, h | h⟩
    · exact Or.inl h.symm
    · exact Or.inr h
  · rintro (rfl | h)
    · exact ⟨text, rfl, Or.inl rfl⟩
    · exact ⟨text, rfl, Or.inr h⟩

variable (os cwd) in
/-- What the tool and the sequential meaning do for one hunk, side by side: the tool from the
original files onto `t`, the other from `c` onto `c`. -/
structure StepAgrees (original t c t₁ c₁ : FileSystem Loc) (h : Hunk) : Prop where
  files : SameFiles t₁ c₁
  frame : ∀ l, l ∉ touched os cwd h → t₁ l = t l ∧ c₁ l = c l
  agree : ∀ later, (∀ l ∈ touched os cwd h, l ∉ later.flatMap (touched os cwd) → t₁ l = c₁ l) ↔
    HunkAgrees os cwd original c h later

theorem stepAgrees {original t c c₁ : FileSystem Loc} {h : Hunk} {change : FileChange}
    (hone : applyOne os cwd c h = some c₁) (hfiles : SameFiles t c)
    (hc : computeChange os cwd original h = .ok change) :
    ∃ t₁, writeChange os t change = (t₁, .ok ()) ∧
      StepAgrees os cwd original t c t₁ c₁ h := by
  obtain ⟨change', hc', hw'⟩ := applyOne_eq_some_iff.1 hone
  cases h with
  | addFile path contents =>
    simp only [computeChange, Except.ok.injEq] at hc hc'
    subst hc
    subst hc'
    simp only [writeChange, Prod.mk.injEq, and_true] at hw'
    subst hw'
    refine ⟨_, rfl, hfiles.update _ (by simp), ?_, ?_⟩
    · intro l hl
      simp only [touched, List.mem_singleton] at hl
      simp [writeFile, hl]
    · intro later
      simp [touched, writeFile, HunkAgrees]
  | deleteFile path =>
    obtain ⟨text, hr, rfl⟩ := computeChange_delete_iff.1 hc
    obtain ⟨text', -, rfl⟩ := computeChange_delete_iff.1 hc'
    obtain ⟨hthere, rfl⟩ := deleteFile_eq_ok_iff.1 hw'
    refine ⟨_, deleteFile_eq_ok_iff.2 ⟨fun h => hthere ((hfiles _).mp h), rfl⟩,
      hfiles.update _ Iff.rfl, ?_, ?_⟩
    · intro l hl
      simp only [touched, List.mem_singleton] at hl
      simp [hl]
    · intro later
      have := readFileAsString_eq_ok hr
      simp [touched, HunkAgrees, this]
  | updateFile path movePath chunks =>
    obtain ⟨_, text, ht, -, rfl⟩ := computeChange_update_iff.1 hc
    obtain ⟨_, text', ht', -, rfl⟩ := computeChange_update_iff.1 hc'
    have hagree := hunkAgrees_update_iff movePath ht ht'
    cases movePath with
    | none =>
      simp only [writeChange, Prod.mk.injEq, and_true] at hw'
      subst hw'
      refine ⟨_, rfl, hfiles.update _ (by simp), ?_, ?_⟩
      · intro l hl
        simp only [touched, List.mem_singleton] at hl
        simp [writeFile, hl]
      · intro later
        rw [hagree]
        simp only [touched, writeFile, List.mem_singleton, forall_eq, Function.update_self,
          Option.some.injEq, ne_eq, not_true_eq_false, false_and, false_or, Option.getD_none]
        tauto
    | some dest =>
      obtain ⟨hthere, rfl⟩ := deleteFile_eq_ok_iff.1 hw'
      have hwritten := hfiles.update (os.locate (cwd.join dest)) (a := some (asBytes text))
        (b := some (asBytes text')) (by simp)
      refine ⟨_, deleteFile_eq_ok_iff.2 ⟨fun h => hthere ((hwritten _).mp h), rfl⟩,
        hwritten.update _ Iff.rfl, ?_, ?_⟩
      · intro l hl
        simp only [touched, List.mem_cons, List.not_mem_nil, or_false, not_or] at hl
        simp [writeFile, hl.1, hl.2]
      · intro later
        rw [hagree]
        by_cases hself : os.locate (cwd.join dest) = os.locate (cwd.join path)
        · simp [touched, hself]
        · simp only [touched, List.mem_cons, List.not_mem_nil, or_false, forall_eq_or_imp,
            forall_eq, writeFile, Function.update_self, Function.update_of_ne hself,
            Option.some.injEq, Option.getD_some, hself, and_false, false_or]
          tauto

/-! ## All hunks -/

omit [DecidableEq Loc] in
theorem computeChange_of_agrees {original current : FileSystem Loc} {h : Hunk}
    {later : List Hunk} (ha : HunkAgrees os cwd original current h later) :
    ∃ change, computeChange os cwd original h = .ok change := by
  cases h with
  | addFile path contents => exact ⟨_, rfl⟩
  | deleteFile path =>
    refine ⟨_, computeChange_delete_iff.2 ⟨?_, ?_, rfl⟩⟩
    · exact os.lossy ((original (os.locate (cwd.join path))).getD [])
    · obtain ⟨bytes, hb⟩ := Option.ne_none_iff_exists'.mp ha
      simp [readFileAsString, hb]
  | updateFile path movePath chunks =>
    obtain ⟨text, ht, -⟩ := ha
    have hread : ∃ read, readFileAsString os original (cwd.join path) = .ok read := by
      unfold updatedText at ht
      cases hr : readFileAsString os original (cwd.join path) with
      | error e => simp [hr, bind, Except.bind] at ht
      | ok read => exact ⟨read, rfl⟩
    obtain ⟨read, hr⟩ := hread
    exact ⟨_, computeChange_update_iff.2 ⟨read, text, ht, hr, rfl⟩⟩

/-- The changes from the original files, written onto `t`, give what the hunks give from `c`
exactly when the two file systems differ only where the hunks write, and the hunks agree. -/
theorem writeChanges_iff (original : FileSystem Loc) (hunks : List Hunk)
    {t c c' : FileSystem Loc} (hseq : applySequentially os cwd c hunks = some c')
    (hfiles : SameFiles t c) :
    (∃ changes, computeAllChanges os cwd original hunks = .ok changes ∧
      (writeChanges os t changes).fs = c' ∧ (writeChanges os t changes).output = .ok ()) ↔
    (∀ l, l ∉ hunks.flatMap (touched os cwd) → t l = c l) ∧
      PatchAgrees os cwd original c hunks := by
  induction hunks generalizing t c with
  | nil =>
    simp only [applySequentially, List.foldlM_nil, Option.pure_def, Option.some.injEq] at hseq
    subst hseq
    simp only [computeAllChanges, List.mapM_nil, pure, Except.pure, Except.ok.injEq,
      exists_eq_left', writeChanges, and_true, List.flatMap_nil, List.not_mem_nil,
      not_false_eq_true, forall_const, patchAgrees_nil]
    exact funext_iff
  | cons h hunks ih =>
    have hfirst : ∃ c₁, applyOne os cwd c h = some c₁ ∧
        applySequentially os cwd c₁ hunks = some c' := by
      unfold applySequentially at hseq
      rw [List.foldlM_cons] at hseq
      exact Option.bind_eq_some_iff.mp hseq
    obtain ⟨c₁, hone, hrest⟩ := hfirst
    rw [patchAgrees_cons hone]
    cases hc : computeChange os cwd original h with
    | error e =>
      constructor
      · rintro ⟨changes, hall, -⟩
        simp [computeAllChanges, hc, bind, Except.bind] at hall
      · rintro ⟨-, ha, -⟩
        obtain ⟨change, hc'⟩ := computeChange_of_agrees ha
        rw [hc] at hc'
        simp at hc'
    | ok change =>
      obtain ⟨t₁, hw, hstep⟩ := stepAgrees hone hfiles hc
      -- the first change is written, the others from there
      have hsplit : (∃ changes, computeAllChanges os cwd original (h :: hunks) = .ok changes ∧
          (writeChanges os t changes).fs = c' ∧ (writeChanges os t changes).output = .ok ()) ↔
          ∃ changes, computeAllChanges os cwd original hunks = .ok changes ∧
            (writeChanges os t₁ changes).fs = c' ∧
            (writeChanges os t₁ changes).output = .ok () := by
        unfold computeAllChanges
        rw [List.mapM_cons, hc]
        cases hall : hunks.mapM (computeChange os cwd original) with
        | error e => simp [bind, Except.bind]
        | ok changes => simp [bind, pure, Except.bind, Except.pure, writeChanges, hw]
      rw [hsplit, ih hrest hstep.files]
      have hfirst : (∀ l, l ∉ hunks.flatMap (touched os cwd) → t₁ l = c₁ l) ↔
          (∀ l, l ∉ (h :: hunks).flatMap (touched os cwd) → t l = c l) ∧
            HunkAgrees os cwd original c h hunks := by
        rw [← hstep.agree hunks]
        simp only [List.flatMap_cons, List.mem_append, not_or, and_imp]
        constructor
        · intro hl
          refine ⟨fun l h1 h2 => ?_, fun l _ h2 => hl l h2⟩
          rw [← (hstep.frame l h1).1, ← (hstep.frame l h1).2]
          exact hl l h2
        · rintro ⟨hout, hin⟩ l h2
          by_cases h1 : l ∈ touched os cwd h
          · exact hin l h1 h2
          · rw [(hstep.frame l h1).1, (hstep.frame l h1).2]
            exact hout l h1 h2
      rw [hfirst, and_assoc]

/-- On files where the hunks succeed one after another, the tool succeeds with the same files
exactly when every hunk agrees with the original files. -/
theorem run_eq_sequential_iff (hunks : List Hunk) (fs fs' : FileSystem Loc)
    (hseq : applySequentially os cwd fs hunks = some fs') :
    ((run os cwd fs hunks).succeeded = true ∧ (run os cwd fs hunks).fs = fs') ↔
      PatchAgrees os cwd fs fs hunks := by
  have hiff := writeChanges_iff fs hunks hseq fun _ => Iff.rfl
  simp only [implies_true, true_and] at hiff
  rw [← hiff]
  by_cases hnil : hunks = []
  · subst hnil
    simp [run, PatchRun.succeeded, computeAllChanges, writeChanges, pure, Except.pure]
  · have hne : hunks.isEmpty = false := by simpa using hnil
    unfold run
    rw [hne]
    simp only [Bool.false_eq_true, if_false]
    cases hall : computeAllChanges os cwd fs hunks with
    | error e => simp [PatchRun.succeeded]
    | ok changes =>
      cases ho : (writeChanges os fs changes).output with
      | error e => simp [PatchRun.succeeded, ho, Except.map]
      | ok u => simp [PatchRun.succeeded, ho, Except.map]

end Sequential

/-! ## Two updates -/

/-- Paths are where they say, and bytes are ASCII. -/
def asciiPlatform : Platform PathBuf where
  locate path := path
  lossy bytes := bytes.map fun b => Char.ofNat b.toNat
  notFound _ := "No such file or directory (os error 2)".toList

def workDir : PathBuf := ⟨true, ["w".toList]⟩

def replaceLine (path old new : String) : Hunk :=
  .updateFile ⟨false, [path.toList]⟩ none [{ oldLines := [old.toList], newLines := [new.toList] }]

/-- The files `f` and `g`, both with the lines `a` and `b`. -/
def twoFiles : FileSystem PathBuf := fun path =>
  if path ∈ [⟨true, ["w".toList, "f".toList]⟩, ⟨true, ["w".toList, "g".toList]⟩] then
    some (asBytes "a\nb\n".toList)
  else none

/-- Updates of two files do not meet. -/
theorem two_files_updated :
    let hunks := [replaceLine "f" "a" "x", replaceLine "g" "b" "y"]
    let f : PathBuf := ⟨true, ["w".toList, "f".toList]⟩
    let g : PathBuf := ⟨true, ["w".toList, "g".toList]⟩
    let fs' := writeFile asciiPlatform (writeFile asciiPlatform twoFiles f "x\nb\n".toList) g
      "a\ny\n".toList
    applySequentially asciiPlatform workDir twoFiles hunks = some fs' ∧
      (run asciiPlatform workDir twoFiles hunks).succeeded = true ∧
      (run asciiPlatform workDir twoFiles hunks).fs = fs' := by
  intro hunks f g fs'
  have hf : applyOne asciiPlatform workDir twoFiles (replaceLine "f" "a" "x") =
      some (writeFile asciiPlatform twoFiles f "x\nb\n".toList) :=
    applyOne_eq_some_iff.2 ⟨.update f "a\nb\n".toList "x\nb\n".toList, by decide, rfl⟩
  have hg : applyOne asciiPlatform workDir (writeFile asciiPlatform twoFiles f "x\nb\n".toList)
      (replaceLine "g" "b" "y") = some fs' :=
    applyOne_eq_some_iff.2 ⟨.update g "a\nb\n".toList "a\ny\n".toList, by decide, rfl⟩
  have hseq : applySequentially asciiPlatform workDir twoFiles hunks = some fs' := by
    simp only [applySequentially, hunks, List.foldlM_cons, List.foldlM_nil, hf, hg,
      Option.bind_eq_bind, Option.bind_some, Option.pure_def]
  refine ⟨hseq, (run_eq_sequential_iff hunks twoFiles fs' hseq).mpr ?_⟩
  rw [patchAgrees_cons hf, patchAgrees_cons hg]
  refine ⟨⟨"x\nb\n".toList, by decide, Or.inl (by decide)⟩,
    ⟨"a\ny\n".toList, by decide, Or.inl (by decide)⟩, patchAgrees_nil _ _⟩

/-- Of two updates of one file, both computed from the file as it was, the first is lost. -/
theorem first_update_lost :
    let hunks := [replaceLine "f" "a" "x", replaceLine "f" "b" "y"]
    let f : PathBuf := ⟨true, ["w".toList, "f".toList]⟩
    (run asciiPlatform workDir twoFiles hunks).succeeded = true ∧
    (run asciiPlatform workDir twoFiles hunks).fs f = some (asBytes "a\ny\n".toList) ∧
    ∃ fs', applySequentially asciiPlatform workDir twoFiles hunks = some fs' ∧
      fs' f = some (asBytes "x\ny\n".toList) ∧
      (run asciiPlatform workDir twoFiles hunks).fs ≠ fs' := by
  intro hunks f
  have hrun : (run asciiPlatform workDir twoFiles hunks).fs f =
      some (asBytes "a\ny\n".toList) := by decide
  have hseq : (applySequentially asciiPlatform workDir twoFiles hunks).map (fun fs => fs f) =
      some (some (asBytes "x\ny\n".toList)) := by decide
  obtain ⟨fs', hfs', hf⟩ := Option.map_eq_some_iff.mp hseq
  refine ⟨by decide, hrun, fs', hfs', hf, fun heq => ?_⟩
  rw [heq, hf] at hrun
  revert hrun
  decide

end GrokBuild.ApplyPatch
