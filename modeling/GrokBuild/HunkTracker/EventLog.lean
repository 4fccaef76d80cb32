import GrokBuild.Lib.Replay
import GrokBuild.HunkTracker.Recompute
import Mathlib.Data.List.Nodup

/-!
# The events as a log

A client keeps the line positions of the hunks by id and applies the events of
`recompute_hunks` in order. The events search for matches with other rules than the loop
that hands out the ids; the condition below says exactly when the client still ends with
the new hunk list.
-/

namespace GrokBuild.HunkTracker

open Replay Text

section EventLog

variable {HunkId Path : Type*} [DecidableEq HunkId] [DecidableEq Path]

/-- What a client that maps hunk ids to line positions writes for an event. -/
def HunkEvent.write : HunkEvent HunkId Path → Option (HunkId × Option HunkLineInfo)
  | .hunkAdded _ hunk => some (hunk.id, some hunk.lineInfo)
  | .hunkRemoved _ id _ => some (id, none)
  | .hunkMoved _ id lineInfo => some (id, some lineInfo)
  | .hunkContentChanged _ hunk _ _ _ => some (hunk.id, some hunk.lineInfo)
  | _ => none

/-- The ids and line positions of a hunk list. -/
def viewOf (hunks : List (Hunk HunkId Path)) (id : HunkId) : Option HunkLineInfo :=
  (hunks.find? fun h => h.id == id).map Hunk.lineInfo

/-- The client's map after the events of `recompute_hunks`. -/
def clientView (path : Path) (old new : List (Hunk HunkId Path)) (source : HunkSource) :
    HunkId → Option HunkLineInfo :=
  replay ((emitHunkDiffEvents path old new source).filterMap HunkEvent.write) (viewOf old)

omit [DecidableEq Path] in
theorem viewOf_of_mem {hunks : List (Hunk HunkId Path)} (hn : (hunks.map Hunk.id).Nodup)
    {h : Hunk HunkId Path} (hm : h ∈ hunks) : viewOf hunks h.id = some h.lineInfo := by
  unfold viewOf
  cases hf : hunks.find? fun x => x.id == h.id with
  | none =>
    have := List.find?_eq_none.mp hf h hm
    simp at this
  | some x =>
    have hx : x.id = h.id := by simpa using List.find?_some hf
    rw [List.inj_on_of_nodup_map hn (List.mem_of_find?_eq_some hf) hm hx]
    rfl

omit [DecidableEq Path] in
theorem viewOf_eq_none {hunks : List (Hunk HunkId Path)} {id : HunkId}
    (h : ∀ x ∈ hunks, x.id ≠ id) : viewOf hunks id = none := by
  unfold viewOf
  rw [List.find?_eq_none.mpr (by simpa using h)]
  rfl

/-! ## The writes -/

omit [DecidableEq HunkId] in
/-- The write of a removed old hunk. -/
theorem removedEvent_write (path : Path) (new : List (Hunk HunkId Path)) (o : Hunk HunkId Path) :
    (removedEvent path new o).bind HunkEvent.write =
      if new.any fun n => hunksOverlap o n || hunksMatchContent o n then none
      else some (o.id, none) := by
  unfold removedEvent
  by_cases h : new.any fun n => hunksOverlap o n || hunksMatchContent o n
  · simp [h]
  · simp [h, HunkEvent.write]

/-- The write of a new hunk: a moved first match, or the hunk itself. -/
def newWrite (old : List (Hunk HunkId Path)) (n : Hunk HunkId Path) :
    Option (HunkId × Option HunkLineInfo) :=
  match firstMatch n old with
  | some o => if o.lineInfo ≠ n.lineInfo then some (o.id, some n.lineInfo) else none
  | none => some (n.id, some n.lineInfo)

theorem newHunkEvent_write (path : Path) (old : List (Hunk HunkId Path)) (source : HunkSource)
    (n : Hunk HunkId Path) :
    (newHunkEvent path old source n).bind HunkEvent.write = newWrite old n := by
  unfold newHunkEvent newWrite
  cases hf : firstMatch n old with
  | some o =>
    have hm := (firstMatch_some hf).2
    by_cases h : o.lineInfo = n.lineInfo
    · simp [hunkMoved, hm, h]
    · simp [hunkMoved, hm, h, HunkEvent.write]
  | none =>
    by_cases h : old.any fun o => hunksOverlap o n
    · simp [h, HunkEvent.write]
    · simp [h, HunkEvent.write]

def removedWrites (old new : List (Hunk HunkId Path)) : List (HunkId × Option HunkLineInfo) :=
  old.filterMap fun o =>
    if new.any fun n => hunksOverlap o n || hunksMatchContent o n then none
    else some (o.id, none)

theorem clientView_apply (path : Path) (old new : List (Hunk HunkId Path)) (source : HunkSource)
    (id : HunkId) :
    clientView path old new source id =
      ((lastWrite (new.filterMap (newWrite old)) id).or
        (lastWrite (removedWrites old new) id)).getD (viewOf old id) := by
  unfold clientView emitHunkDiffEvents
  rw [replay_apply, List.filterMap_append, lastWrite_append, List.filterMap_filterMap,
    List.filterMap_filterMap]
  simp only [removedEvent_write, newHunkEvent_write]
  rfl

omit [DecidableEq HunkId] in
theorem newWrite_value {old : List (Hunk HunkId Path)} {n : Hunk HunkId Path} {id : HunkId}
    {v : Option HunkLineInfo} (h : newWrite old n = some (id, v)) : v = some n.lineInfo := by
  unfold newWrite at h
  cases hf : firstMatch n old with
  | none =>
    rw [hf] at h
    exact ((Prod.mk.inj (Option.some.inj h)).2).symm
  | some o =>
    rw [hf] at h
    by_cases hl : o.lineInfo ≠ n.lineInfo
    · simp only [hl, not_false_eq_true, if_true, ne_eq, Option.some.injEq, Prod.mk.injEq] at h
      exact h.2.symm
    · simp [hl] at h

/-- In a stretch of new hunks without the id of `o`, only moved first matches write to it. -/
theorem lastWrite_stretch {old : List (Hunk HunkId Path)} (hold : (old.map Hunk.id).Nodup)
    {S : List (Hunk HunkId Path)} {o : Hunk HunkId Path} (ho : o ∈ old)
    (hS : ∀ y ∈ S, y.id ≠ o.id) :
    (lastWrite (S.filterMap (newWrite old)) o.id = none ↔
      ∀ y ∈ S, firstMatch y old = some o → y.lineInfo = o.lineInfo) := by
  rw [lastWrite_eq_none_iff]
  constructor
  · intro h y hy hf
    by_contra hne
    have hw : newWrite old y = some (o.id, some y.lineInfo) := by
      simp [newWrite, hf, Ne.symm hne]
    exact h _ (List.mem_filterMap.mpr ⟨y, hy, hw⟩) rfl
  · intro h w hw hwid
    obtain ⟨y, hy, hyw⟩ := List.mem_filterMap.mp hw
    unfold newWrite at hyw
    cases hf : firstMatch y old with
    | none =>
      simp only [hf, Option.some.injEq] at hyw
      rw [← hyw] at hwid
      exact hS y hy hwid
    | some f =>
      simp only [hf] at hyw
      by_cases hl : f.lineInfo = y.lineInfo
      · simp [hl] at hyw
      · simp only [ne_eq, hl, not_false_eq_true, if_true, Option.some.injEq] at hyw
        rw [← hyw] at hwid
        have hfo := List.inj_on_of_nodup_map hold (firstMatch_some hf).1 ho hwid
        subst hfo
        exact hl (h y hy hf).symm

theorem lastWrite_stretch_mem {old S : List (Hunk HunkId Path)} {id : HunkId}
    {v : Option HunkLineInfo} (h : lastWrite (S.filterMap (newWrite old)) id = some v) :
    ∃ y ∈ S, v = some y.lineInfo := by
  obtain ⟨y, hy, hw⟩ := List.mem_filterMap.mp (mem_of_lastWrite h)
  exact ⟨y, hy, newWrite_value hw⟩

theorem lastWrite_stretch_of_ne {old S : List (Hunk HunkId Path)} {id : HunkId}
    (hS : ∀ y ∈ S, y.id ≠ id) (hold : ∀ o ∈ old, o.id ≠ id) :
    lastWrite (S.filterMap (newWrite old)) id = none := by
  rw [lastWrite_eq_none_iff]
  intro w hw
  obtain ⟨y, hy, hyw⟩ := List.mem_filterMap.mp hw
  unfold newWrite at hyw
  cases hf : firstMatch y old with
  | none =>
    simp only [hf, Option.some.injEq] at hyw
    rw [← hyw]
    exact hS y hy
  | some f =>
    simp only [hf, ne_eq, ite_not] at hyw
    by_cases hl : f.lineInfo = y.lineInfo
    · simp [hl] at hyw
    · simp only [hl, if_false, Option.some.injEq] at hyw
      rw [← hyw]
      exact hold f (firstMatch_some hf).1

/-! ## When the log is faithful -/

/-- What `recompute_hunks` is called with: ids of the old hunks are distinct, the raw hunks
have fresh distinct ids and distinct line positions. -/
structure RecomputeInput (old raw : List (Hunk HunkId Path)) : Prop where
  old_ids : (old.map Hunk.id).Nodup
  raw_ids : (raw.map Hunk.id).Nodup
  fresh : ∀ n ∈ raw, ∀ o ∈ old, n.id ≠ o.id
  positions : (raw.map Hunk.lineInfo).Nodup

/-- The client ends with the new list exactly when the two matchings do not disagree: a hunk
with a content match gets the id of its best match; every old hunk that a new one touches is
some new hunk's best match; and the hunk that takes an old id over is the last to write a
position to it. -/
structure FaithfulEvents (old raw : List (Hunk HunkId Path)) : Prop where
  content_claims : ∀ A n B, raw = A ++ n :: B → firstMatch n old ≠ none →
    ∀ a ∈ A, findMatchingOldHunk a old ≠ findMatchingOldHunk n old
  related_matched : ∀ o ∈ old, (∃ n ∈ raw, hunksOverlap o n ∨ hunksMatchContent o n) →
    ∃ n ∈ raw, findMatchingOldHunk n old = some o
  last_position : ∀ A n B, raw = A ++ n :: B → ∀ o, findMatchingOldHunk n old = some o →
    (∀ a ∈ A, findMatchingOldHunk a old ≠ some o) →
    if firstMatch n old = none ∨ firstMatch n old = some o then
      (∀ m ∈ B, firstMatch m old = some o → m.lineInfo = o.lineInfo) ∧
      ((∃ m ∈ A, firstMatch m old = some o ∧ m.lineInfo ≠ o.lineInfo) →
        firstMatch n old = none ∨ n.lineInfo ≠ o.lineInfo)
    else n.lineInfo = o.lineInfo

section Faithful

variable {old raw : List (Hunk HunkId Path)}

/-- The place of a raw hunk in the new list. -/
theorem preserveIds_split (A B : List (Hunk HunkId Path)) (n : Hunk HunkId Path) :
    preserveIds old [] (A ++ n :: B) =
      preserveIds old [] A ++ (claimOld old (claimedAfter old [] A) n).1 ::
        preserveIds old (claimedAfter old [] (A ++ [n])) B := by
  have hone : claimedAfter old [] (A ++ [n]) = (claimOld old (claimedAfter old [] A) n).2 := by
    generalize ([] : List HunkId) = claimed
    induction A generalizing claimed with
    | nil => rfl
    | cons a A ih => exact ih _
  rw [preserveIds_append, preserveIds, hone]

theorem firstMatch_claimOld (claimed : List HunkId) (n : Hunk HunkId Path) :
    firstMatch (claimOld old claimed n).1 old = firstMatch n old := by
  obtain ⟨hp, -, ho, hn⟩ := claimOld_fields old claimed n
  unfold firstMatch hunksMatchContent
  rw [hp, ho, hn]

theorem related_claimOld (o : Hunk HunkId Path) (claimed : List HunkId) (n : Hunk HunkId Path) :
    (hunksOverlap o (claimOld old claimed n).1 || hunksMatchContent o (claimOld old claimed n).1) =
      (hunksOverlap o n || hunksMatchContent o n) := by
  obtain ⟨hp, hl, ho, hn⟩ := claimOld_fields old claimed n
  unfold hunksOverlap hunksMatchContent
  rw [hp, hl, ho, hn]

/-- The removals look at the raw hunks as well as at the new ones. -/
theorem removedWrites_raw :
    removedWrites old (preserveIds old [] raw) = removedWrites old raw := by
  unfold removedWrites
  congr 1
  funext o
  have h := preserveIds_map old (fun n => hunksOverlap o n || hunksMatchContent o n)
    (related_claimOld o) [] raw
  have hany := congrArg (fun l : List Bool => l.any id) h
  simp only [List.any_map, Function.comp_def, id_eq] at hany
  rw [hany]

theorem forall_preserveIds_iff (claimed : List HunkId) (S : List (Hunk HunkId Path))
    (P : Option (Hunk HunkId Path) → HunkLineInfo → Prop) :
    (∀ y ∈ preserveIds old claimed S, P (firstMatch y old) y.lineInfo) ↔
      ∀ m ∈ S, P (firstMatch m old) m.lineInfo := by
  have h := preserveIds_map old (fun n => (firstMatch n old, n.lineInfo))
    (fun claimed n => by rw [firstMatch_claimOld, (claimOld_fields old claimed n).2.1]) claimed S
  have hall : ∀ l : List (Hunk HunkId Path),
      (∀ y ∈ l, P (firstMatch y old) y.lineInfo) ↔
        ∀ e ∈ l.map (fun n => (firstMatch n old, n.lineInfo)), P e.1 e.2 := by
    intro l
    simp
  rw [hall, h, ← hall]

theorem lastWrite_removed_of_ne {id : HunkId} (hold : ∀ o ∈ old, o.id ≠ id) :
    lastWrite (removedWrites old raw) id = none := by
  rw [lastWrite_eq_none_iff]
  intro w hw
  obtain ⟨o, ho, how⟩ := List.mem_filterMap.mp hw
  by_cases hr : raw.any fun n => hunksOverlap o n || hunksMatchContent o n
  · simp [hr] at how
  · simp only [hr, Bool.false_eq_true, if_false, Option.some.injEq] at how
    rw [← how]
    exact hold o ho

theorem lastWrite_removed (hi : RecomputeInput old raw) {o : Hunk HunkId Path} (ho : o ∈ old) :
    lastWrite (removedWrites old raw) o.id =
      if ∃ n ∈ raw, hunksOverlap o n ∨ hunksMatchContent o n then none else some none := by
  by_cases hr : ∃ n ∈ raw, hunksOverlap o n ∨ hunksMatchContent o n
  · rw [if_pos hr, lastWrite_eq_none_iff]
    intro w hw hwid
    obtain ⟨o', ho', how⟩ := List.mem_filterMap.mp hw
    by_cases hr' : raw.any fun n => hunksOverlap o' n || hunksMatchContent o' n
    · simp [hr'] at how
    · simp only [hr', Bool.false_eq_true, if_false, Option.some.injEq] at how
      rw [← how] at hwid
      have := List.inj_on_of_nodup_map hi.old_ids ho' ho hwid
      subst this
      exact hr' (by simpa using hr)
  · rw [if_neg hr]
    cases hl : lastWrite (removedWrites old raw) o.id with
    | none =>
      rw [lastWrite_eq_none_iff] at hl
      refine absurd rfl (hl (o.id, none) (List.mem_filterMap.mpr ⟨o, ho, ?_⟩))
      rw [if_neg]
      simpa using hr
    | some v =>
      obtain ⟨o', -, how⟩ := List.mem_filterMap.mp (mem_of_lastWrite hl)
      by_cases hr' : raw.any fun n => hunksOverlap o' n || hunksMatchContent o' n
      · simp [hr'] at how
      · simp only [hr', Bool.false_eq_true, if_false, Option.some.injEq, Prod.mk.injEq] at how
        rw [how.2]

/-- The client's view in terms of the raw hunks. -/
theorem clientView_raw (path : Path) (source : HunkSource) (id : HunkId) :
    clientView path old (preserveIds old [] raw) source id =
      ((lastWrite ((preserveIds old [] raw).filterMap (newWrite old)) id).or
        (lastWrite (removedWrites old raw) id)).getD (viewOf old id) := by
  rw [clientView_apply, removedWrites_raw]

/-! ## Each id on its own -/

theorem nodup_preserveIds (hi : RecomputeInput old raw) :
    ((preserveIds old [] raw).map Hunk.id).Nodup :=
  (preserveIds_ids old [] hi.fresh hi.raw_ids).1

omit [DecidableEq HunkId] [DecidableEq Path] in
/-- Around an element of a list with distinct keys, its key does not occur again. -/
theorem ne_of_nodup_split {γ : Type*} {key : Hunk HunkId Path → γ}
    {A B : List (Hunk HunkId Path)} {x : Hunk HunkId Path}
    (h : ((A ++ x :: B).map key).Nodup) :
    (∀ y ∈ A, key y ≠ key x) ∧ ∀ y ∈ B, key y ≠ key x := by
  rw [List.map_append, List.map_cons, List.nodup_append] at h
  refine ⟨fun y hy => h.2.2 _ (List.mem_map_of_mem hy) _ (by simp), fun y hy hyx => ?_⟩
  exact (List.nodup_cons.mp h.2.1).1 (List.mem_map.mpr ⟨y, hy, hyx⟩)

/-- At an id that no old hunk has, the client misses a hunk exactly when the events take it
for a move. -/
theorem clientView_of_fresh (hi : RecomputeInput old raw) (path : Path) (source : HunkSource)
    {id : HunkId} (hold : ∀ o ∈ old, o.id ≠ id) :
    clientView path old (preserveIds old [] raw) source id = viewOf (preserveIds old [] raw) id ↔
      ∀ x ∈ preserveIds old [] raw, x.id = id → firstMatch x old = none := by
  rw [clientView_raw, lastWrite_removed_of_ne hold, viewOf_eq_none hold, Option.or_none]
  by_cases hx : ∃ x ∈ preserveIds old [] raw, x.id = id
  · obtain ⟨x, hx, rfl⟩ := hx
    have hnew := nodup_preserveIds hi
    rw [viewOf_of_mem hnew hx]
    have honly : ∀ y ∈ preserveIds old [] raw, y.id = x.id → y = x :=
      fun y hy h => List.inj_on_of_nodup_map hnew hy hx h
    obtain ⟨A, B, hsplit⟩ := List.append_of_mem hx
    obtain ⟨hA, hB⟩ := ne_of_nodup_split (hsplit ▸ hnew)
    have hlast : lastWrite ((preserveIds old [] raw).filterMap (newWrite old)) x.id =
        if firstMatch x old = none then some (some x.lineInfo) else none := by
      rw [hsplit, lastWrite_filterMap_split, lastWrite_stretch_of_ne hA hold,
        lastWrite_stretch_of_ne hB hold, Option.or_none, Option.none_or]
      cases hf : firstMatch x old with
      | none =>
        have hw : newWrite old x = some (x.id, some x.lineInfo) := by simp [newWrite, hf]
        simp [hw, lastWrite_singleton]
      | some f =>
        have hfx := hold f (firstMatch_some hf).1
        by_cases hl : f.lineInfo = x.lineInfo
        · have hw : newWrite old x = none := by simp [newWrite, hf, hl]
          simp [hw, lastWrite]
        · have hw : newWrite old x = some (f.id, some x.lineInfo) := by simp [newWrite, hf, hl]
          simp [hw, lastWrite_singleton, hfx]
    rw [hlast]
    by_cases hf : firstMatch x old = none
    · simp only [hf, if_true, Option.getD_some, true_iff]
      intro y hy hyx
      rw [honly y hy hyx, hf]
    · simp only [hf, if_false, Option.getD_none, reduceCtorEq, false_iff]
      exact fun h => hf (h x hx rfl)
  · have hne : ∀ x ∈ preserveIds old [] raw, x.id ≠ id := fun x hm h => hx ⟨x, hm, h⟩
    rw [lastWrite_stretch_of_ne hne hold, viewOf_eq_none hne]
    exact iff_of_true rfl fun x hm h => absurd h (hne x hm)

/-- At an old id that is nobody's best match, the client drops the hunk exactly when no new
hunk touches it. -/
theorem clientView_of_unmatched (hi : RecomputeInput old raw) (path : Path)
    (source : HunkSource) {o : Hunk HunkId Path} (ho : o ∈ old)
    (hun : ∀ n ∈ raw, findMatchingOldHunk n old ≠ some o) :
    clientView path old (preserveIds old [] raw) source o.id =
        viewOf (preserveIds old [] raw) o.id ↔
      ¬∃ n ∈ raw, hunksOverlap o n ∨ hunksMatchContent o n := by
  have hne : ∀ y ∈ preserveIds old [] raw, y.id ≠ o.id := by
    intro y hy hyo
    rcases (preserveIds_ids old [] hi.fresh hi.raw_ids).2 y hy with
      ⟨n, hn, hyn⟩ | ⟨n, hn, o', ho', hyo', -⟩
    · exact hi.fresh n hn o ho (hyn.symm.trans hyo)
    · have hoo := List.inj_on_of_nodup_map hi.old_ids (findMatchingOldHunk_some ho').1 ho
        (hyo'.symm.trans hyo)
      subst hoo
      exact hun n hn ho'
  rw [clientView_raw, viewOf_eq_none hne, viewOf_of_mem hi.old_ids ho, lastWrite_removed hi ho]
  have hstretch := lastWrite_stretch hi.old_ids ho hne
  rw [forall_preserveIds_iff [] raw fun f l => f = some o → l = o.lineInfo] at hstretch
  cases hl : lastWrite ((preserveIds old [] raw).filterMap (newWrite old)) o.id with
  | none =>
    by_cases hr : ∃ n ∈ raw, hunksOverlap o n ∨ hunksMatchContent o n
    · simp [hr]
    · simp [hr]
  | some v =>
    -- a write by a new hunk is a position, and its hunk has the content of `o`
    obtain ⟨y, -, rfl⟩ := lastWrite_stretch_mem hl
    have hr : ∃ n ∈ raw, hunksOverlap o n ∨ hunksMatchContent o n := by
      by_contra hr
      have hnone := hstretch.mpr fun m hm hf =>
        absurd ⟨m, hm, Or.inr (firstMatch_some hf).2⟩ hr
      rw [hl] at hnone
      simp at hnone
    simp [hr]

/-- The condition of `FaithfulEvents.last_position` at one place. -/
theorem clientView_of_matched (hi : RecomputeInput old raw) (path : Path) (source : HunkSource)
    {A B : List (Hunk HunkId Path)} {n o : Hunk HunkId Path} (hraw : raw = A ++ n :: B)
    (ho : findMatchingOldHunk n old = some o)
    (hA : ∀ a ∈ A, findMatchingOldHunk a old ≠ some o) :
    clientView path old (preserveIds old [] raw) source o.id =
        viewOf (preserveIds old [] raw) o.id ↔
      if firstMatch n old = none ∨ firstMatch n old = some o then
        (∀ m ∈ B, firstMatch m old = some o → m.lineInfo = o.lineInfo) ∧
        ((∃ m ∈ A, firstMatch m old = some o ∧ m.lineInfo ≠ o.lineInfo) →
          firstMatch n old = none ∨ n.lineInfo ≠ o.lineInfo)
      else n.lineInfo = o.lineInfo := by
  obtain ⟨hmem, hkind⟩ := findMatchingOldHunk_some ho
  have hnew := nodup_preserveIds hi
  have hpos := hi.positions
  subst hraw
  rw [preserveIds_split] at hnew
  -- `n` gets the id of `o`
  have hid : (claimOld old (claimedAfter old [] A) n).1.id = o.id := by
    have hfree : o.id ∉ claimedAfter old [] A := by
      rw [mem_claimedAfter]
      rintro (h | ⟨a, ha, o', ho', hoo⟩)
      · simp at h
      · rw [List.inj_on_of_nodup_map hi.old_ids (findMatchingOldHunk_some ho').1 hmem hoo] at ho'
        exact hA a ha ho'
    unfold claimOld
    rw [ho]
    simp [hfree]
  obtain ⟨hneA, hneB⟩ := ne_of_nodup_split hnew
  rw [hid] at hneA hneB
  have hline := (claimOld_fields old (claimedAfter old [] A) n).2.1
  have hview : viewOf (preserveIds old [] (A ++ n :: B)) o.id = some n.lineInfo := by
    rw [preserveIds_split, ← hid, viewOf_of_mem hnew (by simp), hline]
  have hrel : ∃ m ∈ A ++ n :: B, hunksOverlap o m ∨ hunksMatchContent o m := by
    refine ⟨n, by simp, ?_⟩
    rcases hkind with ⟨-, h⟩ | ⟨-, h⟩
    · exact Or.inr h
    · exact Or.inl h
  rw [clientView_raw, hview, viewOf_of_mem hi.old_ids hmem, lastWrite_removed hi hmem,
    if_pos hrel, Option.or_none, preserveIds_split, lastWrite_filterMap_split]
  have hsA := lastWrite_stretch hi.old_ids hmem hneA
  have hsB := lastWrite_stretch hi.old_ids hmem hneB
  rw [forall_preserveIds_iff [] A fun f l => f = some o → l = o.lineInfo] at hsA
  rw [forall_preserveIds_iff _ B fun f l => f = some o → l = o.lineInfo] at hsB
  have hw : newWrite old (claimOld old (claimedAfter old [] A) n).1 =
      match firstMatch n old with
      | some f => if f.lineInfo ≠ n.lineInfo then some (f.id, some n.lineInfo) else none
      | none => some (o.id, some n.lineInfo) := by
    unfold newWrite
    rw [firstMatch_claimOld, hline, hid]
  rw [hw]
  -- no other hunk of the file has the position of `n`
  have hotherA : ∀ v, lastWrite ((preserveIds old [] A).filterMap (newWrite old)) o.id = some v →
      v ≠ some n.lineInfo := by
    intro v hv
    obtain ⟨y, hy, rfl⟩ := lastWrite_stretch_mem hv
    have hp := (forall_preserveIds_iff [] A fun _ l => l ≠ n.lineInfo).mpr
      (ne_of_nodup_split hpos).1 y hy
    simpa using hp
  have hotherB : ∀ v, lastWrite ((preserveIds old (claimedAfter old [] (A ++ [n])) B).filterMap
      (newWrite old)) o.id = some v → v ≠ some n.lineInfo := by
    intro v hv
    obtain ⟨y, hy, rfl⟩ := lastWrite_stretch_mem hv
    have hp := (forall_preserveIds_iff _ B fun _ l => l ≠ n.lineInfo).mpr
      (ne_of_nodup_split hpos).2 y hy
    simpa using hp
  generalize lastWrite ((preserveIds old [] A).filterMap (newWrite old)) o.id = wA at *
  generalize lastWrite ((preserveIds old (claimedAfter old [] (A ++ [n])) B).filterMap
    (newWrite old)) o.id = wB at *
  have hwritten : (wB.or ((some (some n.lineInfo)).or wA)).getD (some o.lineInfo) =
      some n.lineInfo ↔ wB = none := by
    cases wB with
    | none => simp
    | some v => simpa using hotherB v rfl
  cases hf : firstMatch n old with
  | none =>
    simp only [Option.toList_some, lastWrite_singleton, if_true, true_or, implies_true, and_true]
    rw [hwritten, hsB]
  | some f =>
    by_cases hfo : f = o
    · subst hfo
      by_cases hl : f.lineInfo = n.lineInfo
      · -- `n` writes nothing, so an earlier write to the id stays too
        have hunwritten : (wB.or (none.or wA)).getD (some f.lineInfo) = some n.lineInfo ↔
            wB = none ∧ wA = none := by
          cases wB with
          | some v => simpa using hotherB v rfl
          | none =>
            cases wA with
            | some v => simpa using hotherA v rfl
            | none => simp [hl]
        have hnone : lastWrite (if f.lineInfo ≠ n.lineInfo then
            some (f.id, some n.lineInfo) else none).toList f.id = none := by
          simp [hl, lastWrite]
        simp only [hnone, or_true, if_true]
        rw [hunwritten, hsA, hsB]
        refine and_congr_right fun _ => ⟨fun h => ?_, fun h m hm hfm => ?_⟩
        · rintro ⟨m, hm, hfm, hne⟩
          exact absurd (h m hm hfm) hne
        · by_contra hne
          rcases h ⟨m, hm, hfm, hne⟩ with h | h
          · simp at h
          · exact h hl.symm
      · simp only [ne_eq, hl, not_false_eq_true, if_true, Option.toList_some, lastWrite_singleton,
          or_true, Ne.symm hl, implies_true, and_true]
        rw [hwritten, hsB]
    · -- then no hunk has `o` as its first match, and nothing writes to its id
      have hno : ∀ m, firstMatch m old ≠ some o := by
        intro m hm
        rcases hkind with ⟨-, h⟩ | ⟨h, -⟩
        · rw [firstMatch_congr (firstMatch_some hm).2 h, hf] at hm
          exact hfo (Option.some.inj hm)
        · rw [hf] at h
          simp at h
      have hfid : f.id ≠ o.id := fun h =>
        hfo (List.inj_on_of_nodup_map hi.old_ids (firstMatch_some hf).1 hmem h)
      rw [hsA.mpr fun m _ h => absurd h (hno m), hsB.mpr fun m _ h => absurd h (hno m)]
      rw [if_neg (by simp [hfo])]
      have hnone : lastWrite (if f.lineInfo ≠ n.lineInfo then
          some (f.id, some n.lineInfo) else none).toList o.id = none := by
        by_cases hl : f.lineInfo = n.lineInfo
        · simp [hl, lastWrite]
        · simp [hl, lastWrite_singleton, hfid]
      simp only [hnone, Option.or_none, Option.getD_none, Option.some.injEq]
      exact eq_comm

/-- A hunk with a content match gets an old id exactly when no earlier hunk has the same best
match. -/
theorem fresh_unmatched_iff (hi : RecomputeInput old raw) :
    (∀ x ∈ preserveIds old [] raw, (∀ o ∈ old, o.id ≠ x.id) → firstMatch x old = none) ↔
      ∀ A n B, raw = A ++ n :: B → firstMatch n old ≠ none →
        ∀ a ∈ A, findMatchingOldHunk a old ≠ findMatchingOldHunk n old := by
  constructor
  · intro h A n B hraw hn a ha heq
    subst hraw
    have hx := h (claimOld old (claimedAfter old [] A) n).1 (by rw [preserveIds_split]; simp)
    rw [firstMatch_claimOld] at hx
    apply hn ∘ hx
    rcases claimOld_id old (claimedAfter old [] A) n with ⟨o, ho, hfree, -⟩ | ⟨-, hid⟩
    · exact absurd ((mem_claimedAfter old).mpr (Or.inr ⟨a, ha, o, heq.trans ho, rfl⟩)) hfree
    · rw [hid]
      exact fun o ho => (hi.fresh n (by simp) o ho).symm
  · intro h x hx hfresh
    by_contra hf
    obtain ⟨A', B', hsplit⟩ := List.append_of_mem hx
    obtain ⟨A, n, B, hraw, -, rfl, -⟩ := preserveIds_eq_append old hsplit
    rw [firstMatch_claimOld] at hf
    rcases claimOld_id old (claimedAfter old [] A) n with ⟨o, ho, -, hid⟩ | ⟨hclaimed, -⟩
    · exact hfresh o (findMatchingOldHunk_some ho).1 hid.symm
    · cases hm : findMatchingOldHunk n old with
      | none =>
        apply hf
        rw [firstMatch_eq_none_iff]
        exact fun o ho => (findMatchingOldHunk_eq_none hm o ho).1
      | some o =>
        rcases (mem_claimedAfter old).mp (hclaimed o hm) with hc | ⟨a, ha, o', ho', hoo⟩
        · simp at hc
        · have hsame := List.inj_on_of_nodup_map hi.old_ids (findMatchingOldHunk_some ho').1
            (findMatchingOldHunk_some hm).1 hoo
          exact h A n B hraw hf a ha (by rw [ho', hm, hsame])

omit [DecidableEq HunkId] in
/-- A best match is taken over by the first hunk that has it. -/
theorem exists_first_matched {o : Hunk HunkId Path}
    (h : ∃ n ∈ raw, findMatchingOldHunk n old = some o) :
    ∃ A n B, raw = A ++ n :: B ∧ findMatchingOldHunk n old = some o ∧
      ∀ a ∈ A, findMatchingOldHunk a old ≠ some o := by
  induction raw with
  | nil => simp at h
  | cons m ms ih =>
    by_cases hm : findMatchingOldHunk m old = some o
    · exact ⟨[], m, ms, rfl, hm, by simp⟩
    · have hms : ∃ n ∈ ms, findMatchingOldHunk n old = some o := by
        obtain ⟨n, hn, hno⟩ := h
        rcases List.mem_cons.mp hn with rfl | hn
        · contradiction
        · exact ⟨n, hn, hno⟩
      obtain ⟨A, n, B, rfl, hno, hA⟩ := ih hms
      refine ⟨m :: A, n, B, rfl, hno, ?_⟩
      simpa [hm] using hA

/-- The client ends with the new hunk list exactly when the events are faithful. -/
theorem clientView_eq_iff (hi : RecomputeInput old raw) (path : Path) (source : HunkSource) :
    clientView path old (preserveIds old [] raw) source = viewOf (preserveIds old [] raw) ↔
      FaithfulEvents old raw := by
  rw [funext_iff]
  constructor
  · intro h
    refine ⟨?_, ?_, ?_⟩
    · rw [← fresh_unmatched_iff hi]
      exact fun x hx hfresh => (clientView_of_fresh hi path source hfresh).mp (h x.id) x hx rfl
    · intro o ho hrel
      by_contra hun
      push Not at hun
      exact (clientView_of_unmatched hi path source ho hun).mp (h o.id) hrel
    · intro A n B hraw o ho hA
      exact (clientView_of_matched hi path source hraw ho hA).mp (h o.id)
  · intro hf id
    by_cases hold : ∃ o ∈ old, o.id = id
    · obtain ⟨o, ho, rfl⟩ := hold
      by_cases hm : ∃ n ∈ raw, findMatchingOldHunk n old = some o
      · obtain ⟨A, n, B, hraw, hno, hA⟩ := exists_first_matched hm
        exact (clientView_of_matched hi path source hraw hno hA).mpr
          (hf.last_position A n B hraw o hno hA)
      · rw [clientView_of_unmatched hi path source ho fun n hn h => hm ⟨n, hn, h⟩]
        exact fun hrel => hm (hf.related_matched o ho hrel)
    · have hfresh : ∀ o ∈ old, o.id ≠ id := fun o ho h => hold ⟨o, ho, h⟩
      rw [clientView_of_fresh hi path source hfresh]
      intro x hx hxid
      exact (fresh_unmatched_iff hi).mpr hf.content_claims x hx (hxid ▸ hfresh)

end Faithful

section Log

variable (diffLines : Str → Str → Option (List Change)) {newId : ℕ → HunkId} (path : Path)
  (baseline current : FileContentState) (source : HunkSource) {old : List (Hunk HunkId Path)}

omit [DecidableEq HunkId] [DecidableEq Path] in
theorem recomputeInput_rawHunks (hinj : Function.Injective newId)
    (hold : (old.map Hunk.id).Nodup) (hfresh : ∀ k, ∀ o ∈ old, newId k ≠ o.id) :
    RecomputeInput old (rawHunks diffLines newId path baseline current source) where
  old_ids := hold
  raw_ids := by
    rw [rawHunks_ids]
    exact List.nodup_range.map hinj
  fresh := by
    intro n hn o ho
    have hid := List.mem_map_of_mem (f := Hunk.id) hn
    rw [rawHunks_ids] at hid
    obtain ⟨k, -, hk⟩ := List.mem_map.mp hid
    rw [← hk]
    exact hfresh k o ho
  positions := rawHunks_positions diffLines newId path baseline current source

/-- A client that starts with the old hunks and applies the events of a recomputation ends
with the new hunks exactly when the two ways of matching agree on them. -/
theorem replay_events_iff_faithful (hinj : Function.Injective newId)
    (hold : (old.map Hunk.id).Nodup) (hfresh : ∀ k, ∀ o ∈ old, newId k ≠ o.id) :
    replay ((recomputeHunks diffLines newId path baseline current source old).2.filterMap
        HunkEvent.write) (viewOf old) =
      viewOf (recomputeHunks diffLines newId path baseline current source old).1 ↔
    FaithfulEvents old (rawHunks diffLines newId path baseline current source) :=
  clientView_eq_iff
    (recomputeInput_rawHunks diffLines path baseline current source hinj hold hfresh) path source

end Log

/-- The line diffs of `a b c` with `x b z` and of `a b c` with `x y z`. -/
def threeLineDiff (_ new : Str) : Option (List Change) :=
  if new = "x\nb\nz\n".toList then
    some [⟨.delete, "a\n".toList⟩, ⟨.insert, "x\n".toList⟩, ⟨.equal, "b\n".toList⟩,
      ⟨.delete, "c\n".toList⟩, ⟨.insert, "z\n".toList⟩]
  else
    some [⟨.delete, "a\n".toList⟩, ⟨.delete, "b\n".toList⟩, ⟨.delete, "c\n".toList⟩,
      ⟨.insert, "x\n".toList⟩, ⟨.insert, "y\n".toList⟩, ⟨.insert, "z\n".toList⟩]

/-- The hunk `a b c → x y z` of a first agent write, with id `0`. -/
def oneHunk : List (Hunk ℕ Unit) :=
  (recomputeHunks threeLineDiff id () (.full "a\nb\nc\n".toList) (.full "x\ny\nz\n".toList)
    (.agentEdit 0) []).1

/-- A hunk that splits in two is logged faithfully: one part keeps the id. -/
theorem split_hunk_in_view :
    let r := recomputeHunks threeLineDiff (· + 1) () (.full "a\nb\nc\n".toList)
      (.full "x\nb\nz\n".toList) (.agentEdit 1) oneHunk
    r.1.map Hunk.id = [0, 2] ∧
    replay (r.2.filterMap HunkEvent.write) (viewOf oneHunk) = viewOf r.1 := by
  have hids : oneHunk.map Hunk.id = [0] := by decide
  have hfresh : ∀ k, ∀ o ∈ oneHunk, k + 1 ≠ o.id := by
    intro k o ho
    have hid := List.mem_map_of_mem (f := Hunk.id) ho
    rw [hids] at hid
    simp only [List.mem_cons, List.not_mem_nil, or_false] at hid
    omega
  have hnone : ∀ n ∈ rawHunks threeLineDiff (· + 1) () (.full "a\nb\nc\n".toList)
      (.full "x\nb\nz\n".toList) (.agentEdit 1), firstMatch n oneHunk = none := by decide
  refine ⟨by decide, (replay_events_iff_faithful threeLineDiff () _ _ _
    Nat.succ_injective (by rw [hids]; decide) hfresh).mpr ?_⟩
  exact
    { content_claims := fun A n B hraw hf => absurd (hnone n (by rw [hraw]; simp)) hf
      related_matched := by decide
      last_position := by
        intro A n B hraw o _ _
        rw [if_pos (Or.inl (hnone n (by rw [hraw]; simp)))]
        refine ⟨fun m hm hf => ?_, fun _ => Or.inl (hnone n (by rw [hraw]; simp))⟩
        rw [hnone m (by rw [hraw]; simp [hm])] at hf
        simp at hf }

/-- The hunks `a → x` and `c → z` of a first agent write, with ids `0` and `1`. -/
def twoHunks : List (Hunk ℕ Unit) :=
  (recomputeHunks threeLineDiff id () (.full "a\nb\nc\n".toList) (.full "x\nb\nz\n".toList)
    (.agentEdit 0) []).1

/-- One hunk grows over both: it takes the id of the second, and nothing tells the client that
the first is gone. -/
theorem merged_hunk_stays_in_view :
    let r := recomputeHunks threeLineDiff (· + 2) () (.full "a\nb\nc\n".toList)
      (.full "x\ny\nz\n".toList) (.agentEdit 1) twoHunks
    (twoHunks.map Hunk.id).Nodup ∧ (∀ k, ∀ o ∈ twoHunks, k + 2 ≠ o.id) ∧
    r.1.map Hunk.id = [1] ∧
    replay (r.2.filterMap HunkEvent.write) (viewOf twoHunks) 0 = some ⟨1, 1, 1, 1⟩ ∧
    replay (r.2.filterMap HunkEvent.write) (viewOf twoHunks) ≠ viewOf r.1 := by
  have hids : twoHunks.map Hunk.id = [0, 1] := by decide
  have hstale : replay ((recomputeHunks threeLineDiff (· + 2) () (.full "a\nb\nc\n".toList)
      (.full "x\ny\nz\n".toList) (.agentEdit 1) twoHunks).2.filterMap HunkEvent.write)
      (viewOf twoHunks) 0 = some ⟨1, 1, 1, 1⟩ := by decide
  refine ⟨by rw [hids]; decide, ?_, by decide, hstale, ?_⟩
  · intro k o ho
    have hid := List.mem_map_of_mem (f := Hunk.id) ho
    rw [hids] at hid
    simp only [List.mem_cons, List.not_mem_nil, or_false] at hid
    omega
  · intro heq
    rw [heq] at hstale
    revert hstale
    decide

end EventLog

end GrokBuild.HunkTracker
