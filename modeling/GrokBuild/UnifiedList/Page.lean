import Mathlib
import GrokBuild.UnifiedList.Cursor

/-!
# One page of the list

A call emits, in order, the rows between the cursor's boundary and the next one, and returns
a cursor as long as it leaves rows or there are pages to fetch.
-/

namespace GrokBuild.UnifiedList

open GrokBuild.Text
open scoped List

variable {T α τ : Type} {clock : Rfc3339 T}

section Keys

theorem boundarySortKey_boundaryOf (row : UnifiedRow α) :
    boundarySortKey clock (boundaryOf row) = rowSortKey clock row := by
  have hts : clock.parse (row.updatedAt.getD []) = row.sortTimestamp clock := by
    rw [UnifiedRow.sortTimestamp]
    cases row.updatedAt with
    | none => exact clock.parse_nil
    | some s => rfl
  rw [boundarySortKey, rowSortKey, boundaryOf, hts]

/-- The key that rows have to pass, below all keys without a boundary. -/
def cut (clock : Rfc3339 T) (boundary : Option BoundaryKey) : WithBot (SortKey T) :=
  match boundary with
  | none => ⊥
  | some b => boundarySortKey clock b

theorem cut_boundaryOf (row : UnifiedRow α) :
    cut clock (some (boundaryOf row)) = rowSortKey clock row :=
  congrArg _ (boundarySortKey_boundaryOf row)

variable [LinearOrder T]

theorem timeKey_lt_iff {a b : Option T} : timeKey a < timeKey b ↔ timestampDesc a b = .lt := by
  cases a with
  | none => cases b <;> simp [timeKey, timestampDesc]
  | some x =>
    cases b with
    | none =>
      simp only [timeKey, timestampDesc, OrderDual.toDual_lt_toDual, iff_true]
      exact WithBot.bot_lt_coe x
    | some y =>
      simp only [timeKey, timestampDesc, OrderDual.toDual_lt_toDual, WithBot.coe_lt_coe,
        cmp_eq_lt_iff]

theorem timeKey_eq_iff {a b : Option T} : timeKey a = timeKey b ↔ timestampDesc a b = .eq := by
  cases a with
  | none =>
    cases b with
    | none => simp only [timestampDesc]
    | some y =>
      simp only [timeKey, timestampDesc, OrderDual.toDual_inj, reduceCtorEq, iff_false]
      exact (WithBot.bot_lt_coe y).ne
  | some x =>
    cases b with
    | none =>
      simp only [timeKey, timestampDesc, OrderDual.toDual_inj, reduceCtorEq, iff_false]
      exact (WithBot.bot_lt_coe x).ne'
    | some y =>
      simp only [timeKey, timestampDesc, OrderDual.toDual_inj, WithBot.coe_inj, cmp_eq_eq_iff]
      exact eq_comm

theorem timestampDesc_gt_iff {a b : Option T} :
    timestampDesc a b = .gt ↔ timestampDesc b a = .lt := by
  cases a with
  | none => cases b <;> simp [timestampDesc]
  | some x =>
    cases b with
    | none => simp [timestampDesc]
    | some y => simp [timestampDesc]

/-- Ids are compared by the order of texts, however that is decided. -/
theorem cmp_sessionId_lt_iff {a b : Str} : cmp a b = .lt ↔ a < b := by
  rw [cmp, cmpUsing]
  by_cases hlt : a < b
  · simp [hlt]
  · rw [if_neg hlt]
    split <;> simp [hlt]

theorem cmp_sessionId_gt_iff {a b : Str} : cmp a b = .gt ↔ b < a := by
  rw [cmp, cmpUsing]
  by_cases hlt : a < b
  · simp [hlt, hlt.le]
  · rw [if_neg hlt]
    by_cases hgt : b < a
    · simp [hgt]
    · simp [hgt]

theorem cmpTotalOrder_lt_iff {a b : UnifiedRow α} :
    cmpTotalOrder clock a b = .lt ↔ rowSortKey clock a < rowSortKey clock b := by
  rw [cmpTotalOrder, Ordering.then_eq_lt, Ordering.then_eq_lt, rowSortKey, rowSortKey, sortKey,
    sortKey, Prod.Lex.toLex_lt_toLex, Prod.Lex.toLex_lt_toLex, timeKey_lt_iff, timeKey_eq_iff,
    cmp_eq_lt_iff, cmp_eq_eq_iff, cmp_sessionId_lt_iff]

theorem cmpTotalOrder_gt_iff {a b : UnifiedRow α} :
    cmpTotalOrder clock a b = .gt ↔ rowSortKey clock b < rowSortKey clock a := by
  rw [cmpTotalOrder, Ordering.then_eq_gt, Ordering.then_eq_gt, rowSortKey, rowSortKey, sortKey,
    sortKey, Prod.Lex.toLex_lt_toLex, Prod.Lex.toLex_lt_toLex, timeKey_lt_iff, timeKey_eq_iff,
    cmp_eq_gt_iff, cmp_eq_eq_iff, cmp_sessionId_gt_iff, timestampDesc_gt_iff]
  rw [← timeKey_eq_iff, ← timeKey_eq_iff]
  simp only [eq_comm]

/-- The rows of a list between two cuts. -/
def between (clock : Rfc3339 T) (lo hi : WithBot (SortKey T)) (rows : List (UnifiedRow α)) :
    List (UnifiedRow α) :=
  rows.filter fun row => lo < rowSortKey clock row ∧ rowSortKey clock row ≤ hi

/-- The rows of a list past a cut. -/
def past (clock : Rfc3339 T) (lo : WithBot (SortKey T)) (rows : List (UnifiedRow α)) :
    List (UnifiedRow α) :=
  rows.filter fun row => lo < rowSortKey clock row

theorem retainPast_eq (boundary : Option BoundaryKey) (rows : List (UnifiedRow α)) :
    retainPast clock boundary rows = past clock (cut clock boundary) rows := by
  cases boundary with
  | none =>
    rw [retainPast, past, eq_comm, List.filter_eq_self]
    intro row _
    exact decide_eq_true (WithBot.bot_lt_coe _)
  | some b => simp only [retainPast, past, cut, WithBot.coe_lt_coe]

/-- Past a cut are the rows up to a higher one and those past that. -/
theorem past_perm {lo hi : WithBot (SortKey T)} (h : lo ≤ hi) (rows : List (UnifiedRow α)) :
    (between clock lo hi rows ++ past clock hi rows).Perm (past clock lo rows) := by
  induction rows with
  | nil => exact List.Perm.refl _
  | cons row rows ih =>
    rw [between, past, past]
    rw [between, past, past] at ih
    by_cases hlo : lo < rowSortKey clock row
    · by_cases hhi : hi < rowSortKey clock row
      · have hnot : ¬(rowSortKey clock row : WithBot (SortKey T)) ≤ hi := not_le.2 hhi
        simp only [List.filter_cons, hlo, hhi, hnot, and_false, decide_false, decide_true,
          if_true, Bool.false_eq_true, if_false]
        exact List.perm_middle.trans (ih.cons row)
      · have hle : (rowSortKey clock row : WithBot (SortKey T)) ≤ hi := not_lt.1 hhi
        simp only [List.filter_cons, hlo, hhi, hle, and_self, decide_false, decide_true,
          if_true, Bool.false_eq_true, if_false, List.cons_append]
        exact ih.cons row
    · have hhi : ¬hi < rowSortKey clock row := fun hh => hlo (h.trans_lt hh)
      simp only [List.filter_cons, hlo, hhi, false_and, decide_false, Bool.false_eq_true, if_false]
      exact ih

end Keys

section Sorted

variable {κ β : Type} [LinearOrder κ] {key : β → κ}

/-- The first rows of a strictly sorted list are those up to the last of them. -/
theorem take_eq_filter {l : List β} (h : l.Pairwise fun a b => key a < key b) {n : ℕ}
    (hn : n < l.length) :
    l.take (n + 1) = l.filter fun a => key a ≤ key l[n] := by
  have happ : l.filter (fun a => key a ≤ key l[n]) =
      (l.take (n + 1)).filter (fun a => key a ≤ key l[n]) ++
        (l.drop (n + 1)).filter (fun a => key a ≤ key l[n]) := by
    rw [← List.filter_append, List.take_append_drop]
  have hsplit := h
  rw [← List.take_append_drop (n + 1) l, List.pairwise_append] at hsplit
  have hlast : l[n] ∈ l.take (n + 1) := by
    rw [List.mem_take_iff_getElem]
    exact ⟨n, by omega, rfl⟩
  have hleft : (l.take (n + 1)).filter (fun a => key a ≤ key l[n]) = l.take (n + 1) := by
    rw [List.filter_eq_self]
    intro a ha
    obtain ⟨i, hi, rfl⟩ := List.mem_take_iff_getElem.1 ha
    simp only [decide_eq_true_eq]
    rcases Nat.lt_or_ge i n with hlt | hge
    · exact (List.pairwise_iff_getElem.1 h i n (by omega) hn hlt).le
    · obtain rfl : i = n := by omega
      exact le_rfl
  have hright : (l.drop (n + 1)).filter (fun a => key a ≤ key l[n]) = [] := by
    rw [List.filter_eq_nil_iff]
    intro a ha
    simp only [decide_eq_true_eq, not_le]
    exact hsplit.2.2 _ hlast a ha
  rw [happ, hleft, hright, List.append_nil]

end Sorted

section Page

variable [LinearOrder T] {localRows : List (UnifiedRow α)} {conv : ConvLane α τ}
  {cursor : CompositeCursor τ} {limit : ℕ}

/-- The rows a call emits. -/
def Paginated.emitted (page : Paginated α τ) : List (UnifiedRow α) :=
  page.candidates.take page.emitCount

/-- The boundary after a call. -/
def nextBoundary (clock : Rfc3339 T) (localRows : List (UnifiedRow α)) (conv : ConvLane α τ)
    (cursor : CompositeCursor τ) (limit : ℕ) : Option BoundaryKey :=
  let page := mergeAndPaginate clock localRows conv cursor limit
  (page.emitted.getLast?.map boundaryOf).or cursor.boundary

theorem sortRows_perm (rows : List (UnifiedRow α)) : (sortRows clock rows).Perm rows :=
  List.mergeSort_perm _ _

/-- Distinct keys make the sorted rows strictly increasing. -/
theorem sortRows_pairwise {rows : List (UnifiedRow α)}
    (h : rows.Pairwise fun a b => rowSortKey clock a ≠ rowSortKey clock b) :
    (sortRows clock rows).Pairwise fun a b => rowSortKey clock a < rowSortKey clock b := by
  have hle : (sortRows clock rows).Pairwise fun a b =>
      rowSortKey clock a ≤ rowSortKey clock b := by
    have hsorted : (sortRows clock rows).Pairwise fun a b =>
        decide (rowSortKey clock a ≤ rowSortKey clock b) = true := by
      apply List.pairwise_mergeSort
      · intro a b c hab hbc
        rw [decide_eq_true_eq] at hab hbc ⊢
        exact hab.trans hbc
      · intro a b
        rw [Bool.or_eq_true, decide_eq_true_eq, decide_eq_true_eq]
        exact le_total _ _
    exact hsorted.imp fun h => of_decide_eq_true h
  have hne : (sortRows clock rows).Pairwise fun a b =>
      rowSortKey clock a ≠ rowSortKey clock b :=
    (sortRows_perm rows).symm.pairwise h fun hab => hab.symm
  exact (hle.and hne).imp fun hab => lt_of_le_of_ne hab.1 hab.2

theorem emitCount_le (keyed : List (UnifiedRow α)) (frontier : Option BoundaryKey) :
    emitCount clock keyed frontier limit ≤ keyed.length := by
  cases frontier with
  | none => exact Nat.min_le_left _ _
  | some f => exact (Nat.min_le_left _ _).trans (Nat.min_le_left _ _)

/-- Nothing past the frontier is emitted. -/
theorem le_frontier_of_emitted {keyed : List (UnifiedRow α)} {f : BoundaryKey}
    {row : UnifiedRow α} (h : row ∈ keyed.take (emitCount clock keyed (some f) limit)) :
    rowSortKey clock row ≤ boundarySortKey clock f := by
  have hle : emitCount clock keyed (some f) limit ≤
      (keyed.takeWhile fun row => rowSortKey clock row ≤ boundarySortKey clock f).length :=
    Nat.min_le_right _ _
  have hpre : keyed.take (emitCount clock keyed (some f) limit) <+:
      keyed.takeWhile fun row => rowSortKey clock row ≤ boundarySortKey clock f := by
    apply List.prefix_of_prefix_length_le (List.take_prefix _ _) (List.takeWhile_prefix _)
    rw [List.length_take]
    exact (Nat.min_le_left _ _).trans hle
  have hmem := List.mem_takeWhile_imp (hpre.subset h)
  exact of_decide_eq_true hmem

/-- With a row to emit that is not past the frontier, something is emitted. -/
theorem emitCount_pos {keyed : List (UnifiedRow α)} {frontier : Option BoundaryKey}
    (hlimit : 1 ≤ limit)
    (hsorted : keyed.Pairwise fun a b => rowSortKey clock a < rowSortKey clock b)
    {row : UnifiedRow α} (hrow : row ∈ keyed)
    (hf : ∀ f, frontier = some f → rowSortKey clock row ≤ boundarySortKey clock f) :
    0 < emitCount clock keyed frontier limit := by
  cases keyed with
  | nil => cases hrow
  | cons first rest =>
    cases frontier with
    | none =>
      simp only [emitCount, List.length_cons]
      omega
    | some f =>
      have hfirst : rowSortKey clock first ≤ boundarySortKey clock f := by
        rcases List.mem_cons.1 hrow with rfl | hmem
        · exact hf f rfl
        · exact ((List.pairwise_cons.1 hsorted).1 row hmem).le.trans (hf f rfl)
      simp only [emitCount, List.length_cons, List.takeWhile_cons, hfirst, decide_true, if_true]
      omega

theorem getLast_take {β : Type} {l : List β} {n : ℕ} (h : n ≤ l.length) :
    (l.take n).getLast? = if 0 < n then l[n - 1]? else none := by
  cases n with
  | zero => simp
  | succ n =>
    have hn : n < l.length := h
    rw [List.getLast?_take, if_neg (Nat.succ_ne_zero n)]
    simp [hn]

/-- The rows of a call in order, those past the boundary. -/
def keyedRows (clock : Rfc3339 T) (localRows : List (UnifiedRow α)) (conv : ConvLane α τ)
    (cursor : CompositeCursor τ) : List (UnifiedRow α) :=
  sortRows clock (retainPast clock cursor.boundary (localRows ++ conv.rows))

theorem keyedRows_perm :
    (keyedRows clock localRows conv cursor).Perm
      (past clock (cut clock cursor.boundary) (localRows ++ conv.rows)) := by
  rw [keyedRows, retainPast_eq]
  exact sortRows_perm _

theorem mem_keyedRows {row : UnifiedRow α} :
    row ∈ keyedRows clock localRows conv cursor ↔
      (row ∈ localRows ∨ row ∈ conv.rows) ∧
        cut clock cursor.boundary < rowSortKey clock row := by
  rw [(keyedRows_perm).mem_iff, past, List.mem_filter, List.mem_append, decide_eq_true_eq]

theorem keyedRows_pairwise (h : (localRows ++ conv.rows).Pairwise fun a b =>
    rowSortKey clock a ≠ rowSortKey clock b) :
    (keyedRows clock localRows conv cursor).Pairwise fun a b =>
      rowSortKey clock a < rowSortKey clock b := by
  apply sortRows_pairwise
  rw [retainPast_eq]
  exact h.filter _

theorem emitted_eq :
    (mergeAndPaginate clock localRows conv cursor limit).emitted =
      (keyedRows clock localRows conv cursor).take
        (emitCount clock (keyedRows clock localRows conv cursor) conv.frontier limit) := rfl

theorem boundary_eq :
    (if 0 < emitCount clock (keyedRows clock localRows conv cursor) conv.frontier limit then
        (keyedRows clock localRows conv cursor)[emitCount clock
          (keyedRows clock localRows conv cursor) conv.frontier limit - 1]?.map boundaryOf
      else none) =
      (mergeAndPaginate clock localRows conv cursor limit).emitted.getLast?.map boundaryOf := by
  rw [emitted_eq, getLast_take (emitCount_le _ _)]
  split
  · rfl
  · rfl

/-- The boundary does not go back. -/
theorem cut_le_nextBoundary (clock : Rfc3339 T) (localRows : List (UnifiedRow α))
    (conv : ConvLane α τ) (cursor : CompositeCursor τ) (limit : ℕ) :
    cut clock cursor.boundary ≤ cut clock (nextBoundary clock localRows conv cursor limit) := by
  rw [nextBoundary]
  cases hlast : (mergeAndPaginate clock localRows conv cursor limit).emitted.getLast? with
  | none => simp
  | some row =>
    have hmem : row ∈ keyedRows clock localRows conv cursor :=
      List.mem_of_mem_take (List.mem_of_getLast? hlast)
    simp only [Option.map_some, Option.some_or]
    rw [cut_boundaryOf]
    exact (mem_keyedRows.1 hmem).2.le

/-- A call emits, in order, the rows between its boundary and the next. -/
theorem emitted_perm (h : (localRows ++ conv.rows).Pairwise fun a b =>
    rowSortKey clock a ≠ rowSortKey clock b) :
    (mergeAndPaginate clock localRows conv cursor limit).emitted.Perm
      (between clock (cut clock cursor.boundary)
        (cut clock (nextBoundary clock localRows conv cursor limit))
        (localRows ++ conv.rows)) := by
  have hsorted : (keyedRows clock localRows conv cursor).Pairwise fun a b =>
      rowSortKey clock a < rowSortKey clock b := keyedRows_pairwise h
  have hle : emitCount clock (keyedRows clock localRows conv cursor) conv.frontier limit ≤
      (keyedRows clock localRows conv cursor).length := emitCount_le _ _
  rw [nextBoundary]
  simp only [emitted_eq]
  cases hn : emitCount clock (keyedRows clock localRows conv cursor) conv.frontier limit with
  | zero =>
    simp only [List.take_zero, List.getLast?_nil, Option.map_none, Option.none_or]
    have hnil : between clock (cut clock cursor.boundary) (cut clock cursor.boundary)
        (localRows ++ conv.rows) = [] := by
      rw [between, List.filter_eq_nil_iff]
      intro row _
      rw [decide_eq_true_eq]
      exact fun hrow => absurd (hrow.1.trans_le hrow.2) (lt_irrefl _)
    rw [hnil]
  | succ n =>
    rw [hn] at hle
    have hlt : n < (keyedRows clock localRows conv cursor).length := hle
    have hlast : ((keyedRows clock localRows conv cursor).take (n + 1)).getLast? =
        some (keyedRows clock localRows conv cursor)[n] := by
      rw [getLast_take hle]
      simp [hlt]
    rw [hlast, take_eq_filter hsorted hlt]
    rw [Option.map_some, Option.some_or, cut_boundaryOf]
    have hkeyed : (keyedRows clock localRows conv cursor).Perm
        (past clock (cut clock cursor.boundary) (localRows ++ conv.rows)) := keyedRows_perm
    refine (hkeyed.filter _).trans (List.Perm.of_eq ?_)
    rw [past, List.filter_filter, between]
    apply List.filter_congr
    intro row _
    rw [Bool.eq_iff_iff]
    simp only [Bool.and_eq_true, decide_eq_true_eq, WithBot.coe_le_coe]
    exact and_comm

theorem emitted_pairwise (h : (localRows ++ conv.rows).Pairwise fun a b =>
    rowSortKey clock a ≠ rowSortKey clock b) :
    (mergeAndPaginate clock localRows conv cursor limit).emitted.Pairwise fun a b =>
      rowSortKey clock a < rowSortKey clock b := by
  have hsorted : (keyedRows clock localRows conv cursor).Pairwise fun a b =>
      rowSortKey clock a < rowSortKey clock b := keyedRows_pairwise h
  exact hsorted.sublist (List.take_sublist _ _)

/-- What a call leaves are the rows past the next boundary. -/
theorem tail_perm (h : (localRows ++ conv.rows).Pairwise fun a b =>
    rowSortKey clock a ≠ rowSortKey clock b) :
    ((keyedRows clock localRows conv cursor).drop
      (emitCount clock (keyedRows clock localRows conv cursor) conv.frontier limit)).Perm
      (past clock (cut clock (nextBoundary clock localRows conv cursor limit))
        (localRows ++ conv.rows)) := by
  rw [← List.perm_append_left_iff (mergeAndPaginate clock localRows conv cursor limit).emitted]
  calc (mergeAndPaginate clock localRows conv cursor limit).emitted ++
        (keyedRows clock localRows conv cursor).drop
          (emitCount clock (keyedRows clock localRows conv cursor) conv.frontier limit)
      = keyedRows clock localRows conv cursor := List.take_append_drop _ _
    _ ~ past clock (cut clock cursor.boundary) (localRows ++ conv.rows) := keyedRows_perm
    _ ~ between clock (cut clock cursor.boundary)
          (cut clock (nextBoundary clock localRows conv cursor limit)) (localRows ++ conv.rows) ++
        past clock (cut clock (nextBoundary clock localRows conv cursor limit))
          (localRows ++ conv.rows) := (past_perm (cut_le_nextBoundary _ _ _ _ _) _).symm
    _ ~ _ := (emitted_perm h).symm.append_right _

/-- With a row past the boundary that is not past the frontier, something is emitted. -/
theorem emitted_ne_nil (h : (localRows ++ conv.rows).Pairwise fun a b =>
    rowSortKey clock a ≠ rowSortKey clock b) (hlimit : 1 ≤ limit) {row : UnifiedRow α}
    (hrow : row ∈ past clock (cut clock (nextBoundary clock localRows conv cursor limit))
      (localRows ++ conv.rows))
    (hf : ∀ f, conv.frontier = some f → rowSortKey clock row ≤ boundarySortKey clock f) :
    (mergeAndPaginate clock localRows conv cursor limit).emitted ≠ [] := by
  have hmem : row ∈ keyedRows clock localRows conv cursor :=
    List.mem_of_mem_drop ((tail_perm h).mem_iff.2 hrow)
  have hpos : 0 < emitCount clock (keyedRows clock localRows conv cursor) conv.frontier limit :=
    emitCount_pos hlimit (keyedRows_pairwise h) hmem hf
  intro hnil
  have hlen := congrArg List.length hnil
  rw [emitted_eq, List.length_take, List.length_nil] at hlen
  have hle : emitCount clock (keyedRows clock localRows conv cursor) conv.frontier limit ≤
      (keyedRows clock localRows conv cursor).length := emitCount_le _ _
  omega

theorem nextCursor_eq (h : (localRows ++ conv.rows).Pairwise fun a b =>
    rowSortKey clock a ≠ rowSortKey clock b) :
    let page := mergeAndPaginate clock localRows conv cursor limit
    let boundary := nextBoundary clock localRows conv cursor limit
    let tail := past clock (cut clock boundary) (localRows ++ conv.rows)
    let next := conv.advance cursor (tail.any (·.kind == .chat))
      (page.emitted.getLast?.map boundaryOf)
    page.nextCursor =
      if tail.any (·.kind == .build) || next.2.2 then
        some { boundary := boundary, convPageToken := next.1, convPageDrained := next.2.1 }
      else none := by
  intro page boundary tail next
  have hany : ∀ kind : SessionKind, ((keyedRows clock localRows conv cursor).drop
      (emitCount clock (keyedRows clock localRows conv cursor) conv.frontier limit)).any
        (·.kind == kind) = tail.any (·.kind == kind) := fun kind => (tail_perm h).any_eq
  simp only [next, page, boundary, nextBoundary, ← boundary_eq, ← hany]
  rfl

end Page

end GrokBuild.UnifiedList
